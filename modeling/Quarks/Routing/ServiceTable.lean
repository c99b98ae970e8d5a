import Quarks.Routing.SharedBodies
import Quarks.Routing.SharedListings
import Quarks.Routing.SharedLookups

/-!
# The shared routes

For each route that both interfaces serve, when the same request is answered alike, and has the
same effect.
-/

namespace Quarks

open Basis

namespace Routing

section

variable [HashOrder] [UnstableSort] (c : Config) (outside : Outside) (n : Node)
  (req : HttpRouter.Request) (x : RValue)

/-- The shared routes, each with what makes a request that is answered over TCP be answered as
over HTTP. -/
def agreements : List (Bytes × Prop) :=
  [(ascii "/put", IsAccepted x ∧ load req.bodyText = none),
    (ascii "/exists", IsAccepted x ∧ ExistsAgrees c n req),
    (ascii "/get", GetAgrees c n req x),
    (ascii "/getkeys", IsAccepted x ∧ PatternReads req),
    (ascii "/getkeysmulti", IsAccepted x ∧ req.bodyText = []),
    (ascii "/getcount", IsAccepted x ∧ PatternReads req),
    (ascii "/iter", IsAccepted x ∧ IterAgrees c n req),
    (ascii "/remove", IsAccepted x),
    (ascii "/removeall", IsAccepted x ∧ PatternReads req),
    (ascii "/remove/atom", IsAccepted x ∧ load req.bodyText = none),
    (ascii "/put/atom", IsAccepted x ∧ load req.bodyText = none),
    (ascii "/atom", IsAccepted x ∧ load req.bodyText = none),
    (ascii "/make", IsAccepted x ∧ load req.bodyText = none),
    (ascii "/getlist", IsAccepted x ∧ (load req.bodyText = none ∨ WindowReads req)),
    (ascii "/getkeysafter", IsAccepted x ∧ (load req.bodyText = none ∨ WindowReads req)),
    (ascii "/getkeyslast", IsAccepted x),
    (ascii "/incr", IsAccepted x ∧ ∃ v, load req.bodyText = some v ∧ IncrementReads v),
    (ascii "/incrval", IsAccepted x ∧ load req.bodyText = none)]

/-- Both interfaces answer a request for the route alike. -/
def Agrees (route : Bytes) : Prop := ∀ e ∈ agreements c n req x, e.1 = route → e.2

section

variable {c : Config} {outside : Outside} {n : Node} {req : HttpRouter.Request} {x : RValue}
  {request : Bytes}

omit [HashOrder] [UnstableSort] in
theorem agrees_of_mem {route : Bytes} {C : Prop} (h : (route, C) ∈ agreements c n req x) :
    Agrees c n req x route ↔ C := by
  refine forall_entry_iff ?_ h
  simp only [agreements, List.map_cons, List.map_nil]
  decide +kernel

omit [UnstableSort] in
theorem servesAlike_agrees {route : Bytes} {C : Prop} {p q : CoreM Bytes}
    (h : ServesAlike n p q ↔ IsAnswered c n request ∧ C)
    (hmem : (route, C) ∈ agreements c n req x) :
    ServesAlike n p q ↔ IsAnswered c n request ∧ Agrees c n req x route :=
  h.trans (and_congr_right fun _ => (agrees_of_mem hmem).symm)

end

end

/-- A request without parameters, and an object with a query and perhaps a body. -/
theorem mirrors_of_path {route : Bytes} {req : HttpRouter.Request} {o : List (Bytes × RValue)}
    (hpath : qsParts req.target = []) (hquery : o.lookup (ascii "query") = some (.string route))
    (hplain : unescape route = route)
    (hnames : ∀ name ∈ o.map Prod.fst, name = ascii "query" ∨ name = ascii "body")
    (hbody : o.lookup (ascii "body") = load req.bodyText) : Mirrors route req (.object o) := by
  have hparam : ∀ name, urlParam name req.target = none := by
    intro name
    unfold urlParam
    rw [hpath]
    rfl
  refine ⟨?_, fun name text _ _ hname => ?_, fun name hquery' hbody' _ => ?_, fun v hv => ?_,
    fun hnone => ?_⟩
  · simp only [RValue.field, hquery]
    exact congrArg Except.ok hplain
  · rw [hparam] at hname
    cases hname
  · have hlookup : (o.lookup name).isSome = false := by
      rw [Bool.eq_false_iff, ne_eq, isSome_lookup]
      exact fun hmem => (hnames name hmem).elim hquery' hbody'
    simp only [RValue.has, hlookup]
  · simp only [RValue.field, hbody, hv]
  · simp only [RValue.has, hbody, hnone]
    rfl

/-- A document to be put, as it is sent over TCP. -/
def putOverTcp : Bytes :=
  ascii "\x7b\"query\":\"/put\",\"body\":\x7b\"key\":\"a\",\"value\":1\x7d\x7d"

/-- The same over HTTP. -/
def putOverHttp : HttpRouter.Request :=
  ⟨ascii "/put", ascii "\x7b\"key\":\"a\",\"value\":1\x7d"⟩

end Routing

end Quarks
