import Quarks.Http.CoreRoutes
import Quarks.Routing.Hazards

/-!
# The same request over both interfaces

A request of the HTTP interface is sent over TCP as an object: the route is its query, the
parameters of the target are its properties, and the value of the body is its body. Here it is
followed what the constructor of `Routing::Request` makes of that.
-/

namespace Quarks

open Basis

namespace Routing

/-- The value that a parameter becomes: its text, or where the constructor reads a number or a
truth value, what the text stands for. -/
def IsProperty (name text : Bytes) (y : RValue) : Prop :=
  y.s = .ok text ∨ (name = ascii "skip" ∨ name = ascii "limit") ∧ y = .number text ∨
    name = ascii "reverse" ∧
      (text = ascii "true" ∧ y = .bool true ∨ text = ascii "false" ∧ y = .bool false)

/-- The object holds a request of the HTTP interface: the route, the parameters but `body`, and
the value of the body, if it is a JSON document. -/
structure Mirrors (route : Bytes) (req : HttpRouter.Request) (x : RValue) : Prop where
  query : (x.field (ascii "query")).bind RValue.s = .ok route
  given : ∀ name text, name ≠ ascii "query" → name ≠ ascii "body" →
    urlParam name req.target = some text → ∃ y, x.field name = .ok y ∧ IsProperty name text y
  missing : ∀ name, name ≠ ascii "query" → name ≠ ascii "body" →
    urlParam name req.target = none → x.has name = .ok false
  body : ∀ v, load req.bodyText = some v → x.field (ascii "body") = .ok v
  noBody : load req.bodyText = none → x.has (ascii "body") = .ok false

/-- A value that can be a body: the constructor asks for its size, and for the text of a value
without elements. -/
def IsBody : RValue → Prop
  | .string _ => True
  | .list l => l ≠ []
  | .object o => o ≠ []
  | _ => False

/-- An object that the constructor of `Routing::Request` accepts, as far as a request of the HTTP
interface can fail that. -/
structure IsAccepted (x : RValue) : Prop where
  body : ∀ y, x.field (ascii "body") = .ok y → IsBody y
  reverse : ∀ y, x.field (ascii "reverse") = .ok y → ∃ b, y = .bool b

/-- What the constructor reads of such an object is what the HTTP interface reads of the
request. -/
structure ReadsAlike (route : Bytes) (httpReq : HttpRouter.Request) (req : Request) : Prop where
  query : req.query = route
  body : req.body = []
  key : req.get (ascii "key") = .ok httpReq.key
  wild : req.wild = .ok (HttpRouter.QueryParams.parse httpReq).wild
  bodyJson : req.bodyJson = .ok (load httpReq.bodyText)
  window : ∀ win, (HttpRouter.QueryParams.parse httpReq).window = .ok win → win = req.window
  reverse : req.reverse = httpReq.reverse

/-! ## Numbers -/

/-- A text that is an integer as a whole: a sign and digits. -/
theorem of_lexicalCastInt64 {text : Bytes} {k : ℤ} (h : lexicalCastInt64 text = some k) :
    ∃ sign digits, text = sign ++ digits ∧ (sign = [] ∨ sign = [43] ∨ sign = [45]) ∧
      digits ≠ [] ∧ (∀ c ∈ digits, isDigit c = true) ∧
      k = if sign = [45] then -(natOfDigits digits : ℤ) else natOfDigits digits := by
  have hread : ∀ {s : Bytes} {v : ℤ}, (if s ≠ [] ∧ s.all isDigit = true then
      if -2 ^ 63 ≤ v ∧ v < 2 ^ 63 then some v else none else none) = some k →
        s ≠ [] ∧ (∀ c ∈ s, isDigit c = true) ∧ k = v := by
    intro s v h
    by_cases hs : s ≠ [] ∧ s.all isDigit = true
    · rw [if_pos hs] at h
      by_cases hv : -2 ^ 63 ≤ v ∧ v < 2 ^ 63
      · rw [if_pos hv] at h
        exact ⟨hs.1, by simpa using hs.2, (Option.some.inj h).symm⟩
      · rw [if_neg hv] at h
        cases h
    · rw [if_neg hs] at h
      cases h
  unfold lexicalCastInt64 at h
  split at h
  next negative s hsign =>
  obtain ⟨hne, hall, hk⟩ := hread h
  split at hsign
  · cases hsign
    exact ⟨[45], s, rfl, Or.inr (Or.inr rfl), hne, hall, hk⟩
  · cases hsign
    exact ⟨[43], s, rfl, Or.inr (Or.inl rfl), hne, hall, hk⟩
  · cases hsign
    exact ⟨[], text, rfl, Or.inl rfl, hne, hall, hk⟩

/-- Where only its start is read, it is the same number. -/
theorem eq_of_stoi {text : Bytes} {z k : ℤ} (hk : lexicalCastInt64 text = some k)
    (hz : stoi text = .ok z) : z = k := by
  obtain ⟨sign, digits, rfl, hsign, hne, hall, rfl⟩ := of_lexicalCastInt64 hk
  obtain ⟨c, s, rfl⟩ := List.exists_cons_of_ne_nil hne
  obtain ⟨hspace, hminus, hplus⟩ := isDigit_start (hall c List.mem_cons_self)
  have htake : (c :: s).takeWhile isDigit = c :: s := List.takeWhile_eq_self_iff.mpr hall
  have hread : ∀ {v : ℤ}, (if -2 ^ 31 ≤ v ∧ v < 2 ^ 31 then .ok v else
      Except.error Failure.outOfRange) = .ok z → z = v := by
    intro v h
    by_cases hv : -2 ^ 31 ≤ v ∧ v < 2 ^ 31
    · rw [if_pos hv] at h
      exact (Except.ok.inj h).symm
    · rw [if_neg hv] at h
      cases h
  unfold stoi at hz
  rcases hsign with rfl | rfl | rfl
  · have hskip : ([] ++ c :: s).dropWhile isSpace = c :: s := by simp [hspace]
    rw [hskip] at hz
    split at hz
    next negative t hsign =>
    split at hsign
    · next heq => exact absurd (List.cons.inj heq).1 hminus
    · next heq => exact absurd (List.cons.inj heq).1 hplus
    · cases hsign
      simp only [htake, if_neg hne] at hz
      exact hread hz
  · simp only [List.cons_append, List.nil_append, List.dropWhile_cons,
      show isSpace 43 = false from rfl, Bool.false_eq_true, if_false, htake, if_neg hne] at hz
    exact hread hz
  · simp only [List.cons_append, List.nil_append, List.dropWhile_cons,
      show isSpace 45 = false from rfl, Bool.false_eq_true, if_false, htake, if_neg hne] at hz
    exact hread hz

/-- A text without a backslash stands for itself; so does that of an integer. -/
theorem unescape_of_lexicalCastInt64 {raw : Bytes} {k : ℤ} (h : lexicalCastInt64 raw = some k) :
    unescape raw = raw := by
  obtain ⟨sign, digits, rfl, hsign, -, hall, -⟩ := of_lexicalCastInt64 h
  have hplain : ∀ s : Bytes, (∀ c ∈ s, c ≠ 92) → unescape s = s := by
    intro s hs
    induction s with
    | nil => rfl
    | cons c s ih =>
      rw [unescape, ih fun d hd => hs d (List.mem_cons_of_mem c hd)]
      · rintro h₁ h₂ h₃ h₄ rest rfl
        exact absurd rfl (hs 92 List.mem_cons_self)
      · rintro c' rest rfl
        exact absurd rfl (hs 92 List.mem_cons_self)
  refine hplain _ fun c hc => ?_
  rcases List.mem_append.mp hc with hc | hc
  · rcases hsign with rfl | rfl | rfl
    · cases hc
    · rw [List.mem_singleton.mp hc]
      decide
    · rw [List.mem_singleton.mp hc]
      decide
  · rintro rfl
    exact absurd (hall _ hc) (by decide)

/-! ## The constructor -/

section

variable {α : Type} {x y : RValue} {name text : Bytes} {read : RValue → Except Failure α} {dflt : α}

theorem fieldOr_given (h : x.field name = .ok y) : fieldOr x name read dflt = read y := by
  unfold fieldOr
  rw [RValue.has_of_field h, h]
  rfl

theorem fieldOr_missing (h : x.has name = .ok false) : fieldOr x name read dflt = .ok dflt := by
  unfold fieldOr
  rw [h]
  rfl

/-- A property that is neither a number nor a truth value is its text. -/
theorem IsProperty.s (h : IsProperty name text y) (hskip : name ≠ ascii "skip")
    (hlimit : name ≠ ascii "limit") (hreverse : name ≠ ascii "reverse") : y.s = .ok text := by
  rcases h with h | ⟨h | h, -⟩ | ⟨h, -⟩
  · exact h
  · exact absurd h hskip
  · exact absurd h hlimit
  · exact absurd h hreverse

/-- Reading a property as a number reads a text, and if that is an integer, the parameter. -/
theorem IsProperty.i (h : IsProperty name text y) (hname : name ≠ ascii "reverse") :
    ∃ token, y.i = (lexicalCastInt64 token).elim (.error .badLexicalCast) .ok ∧
      ∀ k, lexicalCastInt64 token = some k → token = text := by
  have hcast : ∀ token, (RValue.number token).i =
      (lexicalCastInt64 token).elim (.error .badLexicalCast) .ok := by
    intro token
    cases hk : lexicalCastInt64 token <;> simp [RValue.i, hk]
  rcases h with h | ⟨-, rfl⟩ | ⟨h, -⟩
  · cases y with
    | string raw =>
      refine ⟨raw, hcast raw, fun k hk => ?_⟩
      rw [← Except.ok.inj h, unescape_of_lexicalCastInt64 hk]
    | _ => cases h
  · exact ⟨text, hcast text, fun _ _ => rfl⟩
  · exact absurd h hname

/-- A property from which the constructor reads a number. -/
theorem IsProperty.number (h : IsProperty name text y) (hname : name ≠ ascii "reverse") {z : ℤ}
    (hz : y.i.map int32 = .ok z) : ∃ k, lexicalCastInt64 text = some k ∧ z = int32 k := by
  obtain ⟨token, hi, htoken⟩ := h.i hname
  rw [hi] at hz
  cases hk : lexicalCastInt64 token with
  | none =>
    rw [hk] at hz
    cases hz
  | some k =>
    rw [hk] at hz
    rw [← htoken k hk]
    exact ⟨k, hk, (Except.ok.inj hz).symm⟩

end

section

variable {route : Bytes} {req : HttpRouter.Request} {x : RValue} {name : Bytes}

/-- A parameter that is read as a text. -/
theorem Mirrors.text (h : Mirrors route req x) (hquery : name ≠ ascii "query")
    (hbody : name ≠ ascii "body") (hskip : name ≠ ascii "skip") (hlimit : name ≠ ascii "limit")
    (hreverse : name ≠ ascii "reverse") :
    fieldOr x name RValue.s [] = .ok ((urlParam name req.target).getD []) := by
  cases hparam : urlParam name req.target with
  | none => exact fieldOr_missing (h.missing name hquery hbody hparam)
  | some text =>
    obtain ⟨y, hy, hprop⟩ := h.given name text hquery hbody hparam
    rw [fieldOr_given hy, hprop.s hskip hlimit hreverse]
    rfl

/-- A parameter that is read as a number: over HTTP the same number, or none. -/
theorem Mirrors.number (h : Mirrors route req x) (hquery : name ≠ ascii "query")
    (hbody : name ≠ ascii "body") (hreverse : name ≠ ascii "reverse") {dflt z k : ℤ}
    {dfltText : Bytes} (hdflt : stoi dfltText = .ok dflt)
    (hz : fieldOr x name (fun y => y.i.map int32) dflt = .ok z)
    (hk : stoi (req.param name dfltText) = .ok k) : k = z := by
  unfold HttpRouter.Request.param at hk
  cases hparam : urlParam name req.target with
  | none =>
    rw [hparam] at hk
    rw [fieldOr_missing (h.missing name hquery hbody hparam)] at hz
    exact (Except.ok.inj (hk.symm.trans hdflt)).trans (Except.ok.inj hz)
  | some text =>
    obtain ⟨y, hy, hprop⟩ := h.given name text hquery hbody hparam
    rw [fieldOr_given hy] at hz
    obtain ⟨k', hk', rfl⟩ := hprop.number hreverse hz
    obtain ⟨c, value, rfl⟩ : ∃ c value, text = c :: value := by
      refine List.exists_cons_of_ne_nil ?_
      rintro rfl
      cases hk'
    rw [hparam] at hk
    have heq := eq_of_stoi hk' hk
    rw [← heq, int32_eq_self (stoi_range hk)]

/-- The direction that is asked for. -/
theorem Mirrors.reverse (h : Mirrors route req x) {reverse : Bool}
    (hreverse : fieldOr x (ascii "reverse") RValue.b false = .ok reverse) :
    reverse = req.reverse := by
  unfold HttpRouter.Request.reverse HttpRouter.Request.param
  cases hparam : urlParam (ascii "reverse") req.target with
  | none =>
    rw [fieldOr_missing (h.missing _ (by decide) (by decide) hparam)] at hreverse
    rw [← Except.ok.inj hreverse]
    decide
  | some text =>
    obtain ⟨y, hy, hprop⟩ := h.given _ text (by decide) (by decide) hparam
    rw [fieldOr_given hy] at hreverse
    rcases hprop with hs | ⟨hname, -⟩ | ⟨-, ⟨rfl, rfl⟩ | ⟨rfl, rfl⟩⟩
    · cases y with
      | string raw => cases hreverse
      | _ => cases hs
    · exact absurd hname (by decide)
    · rw [← Except.ok.inj hreverse]
      decide
    · rw [← Except.ok.inj hreverse]
      decide

/-- The value of a well-formed request is an object. -/
theorem Mirrors.exists_object (h : Mirrors route req x) : ∃ o, x = .object o := by
  cases hfield : x.field (ascii "query") with
  | error f =>
    have hquery := h.query
    rw [hfield] at hquery
    cases hquery
  | ok y =>
    obtain ⟨o, rfl, -⟩ := RValue.field_cases hfield
    exact ⟨o, rfl⟩

theorem Mirrors.objects {request : Bytes} (h : Mirrors route req x)
    (hload : load request = some x) : ∀ x, load request = some x → ∃ o, x = .object o := by
  intro x' hx'
  rw [hload] at hx'
  cases hx'
  exact h.exists_object

/-- A request that the constructor accepts is read as over HTTP. -/
theorem Mirrors.readsAlike {request : Bytes} {r : Request} (h : Mirrors route req x)
    (hload : load request = some x) (hmake : Request.make request = .ok r) :
    ReadsAlike route req r := by
  have hwellFormed : r.WellFormed := Request.make_wellFormed (h.objects hload) hmake
  unfold Request.make at hmake
  rw [hload] at hmake
  obtain ⟨query, hquery, hmake⟩ := of_bind_ok hmake
  obtain ⟨body, -, hmake⟩ := of_bind_ok hmake
  obtain ⟨skip, hskip, hmake⟩ := of_bind_ok hmake
  obtain ⟨limit, hlimit, hmake⟩ := of_bind_ok hmake
  obtain ⟨reverse, hreverse, hmake⟩ := of_bind_ok hmake
  cases hmake
  refine ⟨?_, hwellFormed.body, ?_, ?_, ?_, fun win hwin => ?_, h.reverse hreverse⟩
  · cases hfield : x.field (ascii "query") with
    | error f =>
      have hs := h.query
      rw [hfield] at hs
      cases hs
    | ok y =>
      have hs := h.query
      rw [hfield] at hs
      rw [fieldOr_given hfield] at hquery
      exact Except.ok.inj (hquery.symm.trans hs)
  · exact h.text (by decide) (by decide) (by decide) (by decide) (by decide)
  · refine (h.text (by decide) (by decide) (by decide) (by decide) (by decide)).trans ?_
    unfold HttpRouter.QueryParams.parse HttpRouter.Request.param
    rcases urlParam (ascii "keys") req.target with _ | (_ | ⟨c, value⟩) <;> rfl
  · cases hbody : load req.bodyText with
    | none => exact fieldOr_missing (h.noBody hbody)
    | some v => exact fieldOr_given (h.body v hbody)
  · unfold HttpRouter.QueryParams.window at hwin
    obtain ⟨skip', hskip', hwin⟩ := of_bind_ok hwin
    obtain ⟨limit', hlimit', hwin⟩ := of_bind_ok hwin
    cases hwin
    have hs := h.number (by decide) (by decide) (by decide) (by decide +kernel) hskip hskip'
    have hl := h.number (by decide) (by decide) (by decide) (by decide +kernel) hlimit hlimit'
    rw [hs, hl]
    rfl

/-! ## Requests that are accepted -/

theorem bodyText_ok_iff {y : RValue} : (∃ text, bodyText y = .ok text) ↔ IsBody y := by
  unfold bodyText
  cases y with
  | string raw =>
    refine iff_of_true ?_ trivial
    change ∃ text, (if (unescape raw).length = 0 then Except.ok (unescape raw) else _) = _
    split <;> exact ⟨_, rfl⟩
  | list l =>
    change (∃ text, (if l.length = 0 then Except.error _ else _) = _) ↔ l ≠ []
    rw [ne_eq, ← List.length_eq_zero_iff]
    split
    · next h => exact iff_of_false (fun ⟨_, h⟩ => by cases h) fun h' => h' h
    · next h => exact iff_of_true ⟨_, rfl⟩ h
  | object o =>
    change (∃ text, (if o.length = 0 then Except.error _ else _) = _) ↔ o ≠ []
    rw [ne_eq, ← List.length_eq_zero_iff]
    split
    · next h => exact iff_of_false (fun ⟨_, h⟩ => by cases h) fun h' => h' h
    · next h => exact iff_of_true ⟨_, rfl⟩ h
  | null | bool b | number token => exact iff_of_false (fun ⟨_, h⟩ => by cases h) id

/-- A property that is a number or its text is a 64-bit integer, or brings the constructor
down. -/
theorem Mirrors.fieldOr_number (h : Mirrors route req x) (hquery : name ≠ ascii "query")
    (hbody : name ≠ ascii "body") (hreverse : name ≠ ascii "reverse") (dflt : ℤ)
    (hread : ∀ y, x.field name = .ok y → RuntimeOnly y.i) :
    ∃ z, fieldOr x name (fun y => y.i.map int32) dflt = .ok z := by
  cases hparam : urlParam name req.target with
  | none => exact ⟨dflt, fieldOr_missing (h.missing name hquery hbody hparam)⟩
  | some text =>
    obtain ⟨y, hy, hprop⟩ := h.given name text hquery hbody hparam
    have hi : ∃ z, y.i = .ok z := by
      obtain ⟨token, hi, -⟩ := hprop.i hreverse
      have hruntime := hread y hy
      rw [hi] at hruntime ⊢
      cases hk : lexicalCastInt64 token with
      | none =>
        rw [hk] at hruntime
        cases hruntime
      | some k => exact ⟨k, rfl⟩
    obtain ⟨z, hz⟩ := hi
    exact ⟨int32 z, by rw [fieldOr_given hy, hz]; rfl⟩

/-- Where the numbers can be read, the constructor fails on a body or a direction only. -/
theorem Mirrors.isAccepted_iff {request : Bytes} (h : Mirrors route req x)
    (hload : load request = some x) (hread : FieldsRead x) :
    (∃ r, Request.make request = .ok r) ↔ IsAccepted x := by
  unfold Request.make
  rw [hload]
  constructor
  · rintro ⟨r, hmake⟩
    obtain ⟨query, hquery, hmake⟩ := of_bind_ok hmake
    obtain ⟨body, hbody, hmake⟩ := of_bind_ok hmake
    obtain ⟨skip, -, hmake⟩ := of_bind_ok hmake
    obtain ⟨limit, -, hmake⟩ := of_bind_ok hmake
    obtain ⟨reverse, hreverse, hmake⟩ := of_bind_ok hmake
    refine ⟨fun y hy => ?_, fun y hy => ?_⟩
    · rw [fieldOr_given hy] at hbody
      exact bodyText_ok_iff.mp ⟨body, hbody⟩
    · rw [fieldOr_given hy] at hreverse
      cases y with
      | bool b => exact ⟨b, rfl⟩
      | _ => cases hreverse
  · rintro ⟨hbody, hreverse⟩
    have hqueryRead : ∃ query, fieldOr x (ascii "query") RValue.s [] = .ok query := by
      have hquery := h.query
      cases hfield : x.field (ascii "query") with
      | error f =>
        rw [hfield] at hquery
        cases hquery
      | ok y =>
        rw [hfield] at hquery
        exact ⟨route, (fieldOr_given hfield).trans hquery⟩
    have hbodyRead : ∃ body, fieldOr x (ascii "body") bodyText [] = .ok body := by
      cases hload : load req.bodyText with
      | none => exact ⟨[], fieldOr_missing (h.noBody hload)⟩
      | some v =>
        have hfield := h.body v hload
        obtain ⟨text, htext⟩ := bodyText_ok_iff.mpr (hbody v hfield)
        exact ⟨text, (fieldOr_given hfield).trans htext⟩
    have hreverseRead : ∃ reverse, fieldOr x (ascii "reverse") RValue.b false = .ok reverse := by
      cases hparam : urlParam (ascii "reverse") req.target with
      | none => exact ⟨false, fieldOr_missing (h.missing _ (by decide) (by decide) hparam)⟩
      | some text =>
        obtain ⟨y, hy, -⟩ := h.given _ text (by decide) (by decide) hparam
        obtain ⟨b, rfl⟩ := hreverse y hy
        exact ⟨b, fieldOr_given hy⟩
    obtain ⟨query, hquery⟩ := hqueryRead
    obtain ⟨body, hbody⟩ := hbodyRead
    obtain ⟨reverse, hreverse⟩ := hreverseRead
    obtain ⟨skip, hskip⟩ := h.fieldOr_number (by decide) (by decide) (by decide) 0
      fun y hy => hread.skip query body y hquery hbody hy
    obtain ⟨limit, hlimit⟩ := h.fieldOr_number (by decide) (by decide) (by decide) (-1)
      fun y hy => hread.limit query body skip y hquery hbody hskip hy
    simp only [hquery, hbody, hskip, hlimit, hreverse]
    exact ⟨_, rfl⟩

end

end Routing

end Quarks
