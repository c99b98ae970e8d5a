import Quarks.Routing.DispatchHazards
import Quarks.Routing.MirroredRequests
import Quarks.Routing.RouteAnswers

/-!
# The same service over both interfaces

`Routing::BuildRoutes` and `HttpRouter::BuildHttpRoutes` register their own callbacks for the same
routes. A request gets the same answer over both, and has the same effect, if the callbacks read
their arguments from places that hold the same. For each route it is determined when that is so.
-/

namespace Quarks

open Basis

namespace Routing

/-- Whatever RocksDB answers, both programs answer with the same text and leave the same data. -/
def ServesAlike (n : Node) (p q : CoreM Bytes) : Prop :=
  ∀ faults w, w.node = n → ∃ payload, answer faults w p = .ok payload ∧
    answer faults w q = .ok payload ∧
      (p.run (handle faults) w).2.node = (q.run (handle faults) w).2.node

section

variable [HashOrder] [UnstableSort] {c : Config} {outside : Outside} {n : Node} {request : Bytes}

/-- A process with these data that has made no call of RocksDB yet. -/
def freshWorld (n : Node) : World := ⟨n, 0, fun _ => false⟩

/-! ## The dispatcher -/

theorem dispatch_string {route : Bytes} {req : HttpRouter.Request} {r : Request}
    (callback : Request → CoreM Bytes) (hmake : Request.make request = .ok r)
    (hreads : ReadsAlike route req r)
    (hstring : (routingTableString c outside).lookup route = some callback)
    (hjson : (routingTableJson c outside).lookup route = none) :
    dispatch c outside request = catchWhat (callback r) fun _ => dispatchError := by
  have hroute : Routing.route c outside r = callback r := by
    unfold Routing.route
    simp only [hreads.query, hstring, hjson, ite_self, bind_pure]
  unfold dispatch
  rw [hmake]
  exact congrArg (fun p => catchWhat p fun _ => dispatchError) hroute

theorem dispatch_json {route : Bytes} {req : HttpRouter.Request} {r : Request}
    (callback : Request → CoreM WValue) (hmake : Request.make request = .ok r)
    (hreads : ReadsAlike route req r)
    (hstring : (routingTableString c outside).lookup route = none)
    (hjson : (routingTableJson c outside).lookup route = some callback) :
    dispatch c outside request =
      catchWhat (HttpRouter.printed (callback r)) fun _ => dispatchError := by
  have hroute : Routing.route c outside r = HttpRouter.printed (callback r) := by
    unfold Routing.route
    simp only [hreads.query, hstring, hjson, pure_bind, if_true]
    rfl
  unfold dispatch
  rw [hmake]
  exact congrArg (fun p => catchWhat p fun _ => dispatchError) hroute

/-- A request that is not accepted because of a runtime error. -/
theorem dispatch_refused {what : Bytes}
    (hmake : Request.make request = .error (.runtimeError what)) :
    dispatch c outside request = pure dispatchError := by
  unfold dispatch
  rw [hmake]
  rfl

omit [HashOrder] [UnstableSort] in
/-- Programs without a common answer. -/
theorem not_servesAlike {p q : CoreM Bytes} {P Q : Bytes → Prop} {E F : Failure → Prop}
    (hp : p.Always P E) (hq : q.Always Q F) (h : ∀ payload, P payload → ¬Q payload) :
    ¬ServesAlike n p q := by
  intro halike
  obtain ⟨payload, hpayload, hpayload', -⟩ := halike noFaults (freshWorld n) rfl
  exact h payload (hp.of_run_ok hpayload) (hq.of_run_ok hpayload')

section

variable {route : Bytes} {req : HttpRouter.Request} {x : RValue}
  (hmirrors : Mirrors route req x) (hload : load request = some x)
include hmirrors hload

/-- A request that is answered as over HTTP is answered. -/
theorem ServesAlike.isAnswered {q : CoreM Bytes}
    (h : ServesAlike n (dispatch c outside request) q) : IsAnswered c n request :=
  (catchWhat_returns_iff (@settled_dispatch _ c outside n _ _ (hmirrors.objects hload))).mp
    fun faults w hw => (h faults w hw).imp fun _ hp => hp.1

/-- A request whose dispatch is the program of the HTTP interface. -/
theorem servesAlike_of_eq {q : CoreM Bytes} (heq : dispatch c outside request = q)
    (hanswered : IsAnswered c n request) : ServesAlike n (dispatch c outside request) q := by
  intro faults w hw
  obtain ⟨payload, hpayload⟩ := (catchWhat_returns_iff
    (@settled_dispatch _ c outside n _ _ (hmirrors.objects hload))).mpr hanswered faults w hw
  exact ⟨payload, hpayload, heq ▸ hpayload, heq ▸ rfl⟩

/-- A request whose dispatch only reads, and has the outcome of the HTTP interface. -/
theorem servesAlike_of_yields {q : CoreM Bytes} {r : Except Failure Bytes}
    (hp : ∀ faults, Yields faults n (dispatch c outside request) r)
    (hq : ∀ faults, Yields faults n q r) (hanswered : IsAnswered c n request) :
    ServesAlike n (dispatch c outside request) q := by
  intro faults w hw
  obtain ⟨payload, hpayload⟩ := (catchWhat_returns_iff
    (@settled_dispatch _ c outside n _ _ (hmirrors.objects hload))).mpr hanswered faults w hw
  obtain ⟨hanswer, hnode⟩ := hp faults w hw
  obtain ⟨hanswer', hnode'⟩ := hq faults w hw
  exact ⟨payload, hpayload, hanswer'.trans (hanswer.symm.trans hpayload), hnode.trans hnode'.symm⟩

variable (outside) in
/-- A request that is answered is accepted, or refused by the dispatcher. -/
theorem make_or_refused (hanswered : IsAnswered c n request) :
    (IsAccepted x ∧ ∃ r, Request.make request = .ok r ∧ ReadsAlike route req r) ∨
      ¬IsAccepted x ∧ dispatch c outside request = pure dispatchError := by
  have haccepted := hmirrors.isAccepted_iff hload (hanswered.1 x hload)
  cases hmake : Request.make request with
  | ok r =>
    exact Or.inl ⟨haccepted.mp ⟨r, hmake⟩, r, rfl, hmirrors.readsAlike hload hmake⟩
  | error f =>
    have hruntime := (runtimeOnly_make (hmirrors.objects hload)).mpr hanswered.1
    rw [hmake] at hruntime
    refine Or.inr ⟨fun h => ?_, ?_⟩
    · obtain ⟨r, hr⟩ := haccepted.mpr h
      rw [hmake] at hr
      cases hr
    · cases f with
      | runtimeError what => exact dispatch_refused hmake
      | _ => cases hruntime

/-- A request is answered as over HTTP exactly if it is answered, accepted, and meets a condition
under which it is. -/
theorem servesAlike_iff {q : CoreM Bytes} {C : Prop}
    (hq : q.Always (· ≠ dispatchError) fun _ => True)
    (halike : ∀ r, Request.make request = .ok r → ReadsAlike route req r →
      IsAnswered c n request → C → ServesAlike n (dispatch c outside request) q)
    (hnot : ∀ r, Request.make request = .ok r → ReadsAlike route req r → ¬C →
      ¬ServesAlike n (dispatch c outside request) q) :
    ServesAlike n (dispatch c outside request) q ↔
      IsAnswered c n request ∧ IsAccepted x ∧ C := by
  constructor
  · intro h
    have hanswered : IsAnswered c n request := h.isAnswered hmirrors hload
    rcases make_or_refused outside hmirrors hload hanswered with
      ⟨haccepted, r, hmake, hreads⟩ | ⟨-, hrefused⟩
    · refine ⟨hanswered, haccepted, ?_⟩
      by_contra hC
      exact hnot r hmake hreads hC h
    · have hp : (dispatch c outside request).Always (· = dispatchError) fun _ => True := by
        rw [hrefused]
        exact Prog.Always.pure rfl
      exact absurd h (not_servesAlike hp hq fun _ h hne => hne h)
  · rintro ⟨hanswered, haccepted, hC⟩
    obtain ⟨r, hmake⟩ := (hmirrors.isAccepted_iff hload (hanswered.1 x hload)).mpr haccepted
    exact halike r hmake (hmirrors.readsAlike hload hmake) hanswered hC

/-- The same where the dispatch is the program of the HTTP interface, unless that has no
answer. -/
theorem servesAlike_iff_of_eq {q : CoreM Bytes} {C : Prop}
    (hq : q.Always (· ≠ dispatchError) fun _ => True)
    (heq : ∀ r, Request.make request = .ok r → ReadsAlike route req r → C →
      dispatch c outside request = q)
    (hnot : ¬C → q.Always (fun _ => False) fun _ => True) :
    ServesAlike n (dispatch c outside request) q ↔
      IsAnswered c n request ∧ IsAccepted x ∧ C := by
  refine servesAlike_iff hmirrors hload hq (fun r hmake hreads hanswered hC => ?_)
    fun r hmake hreads hC => ?_
  · exact servesAlike_of_eq hmirrors hload (heq r hmake hreads hC) hanswered
  · exact not_servesAlike (Prog.Always.any _) (hnot hC) fun _ _ h => h

/-- The same where nothing but being accepted is needed. -/
theorem servesAlike_iff_isAccepted {q : CoreM Bytes}
    (hq : q.Always (· ≠ dispatchError) fun _ => True)
    (heq : ∀ r, Request.make request = .ok r → ReadsAlike route req r →
      dispatch c outside request = q) :
    ServesAlike n (dispatch c outside request) q ↔ IsAnswered c n request ∧ IsAccepted x := by
  have hiff : ServesAlike n (dispatch c outside request) q ↔
      IsAnswered c n request ∧ IsAccepted x ∧ True :=
    servesAlike_iff_of_eq hmirrors hload hq (fun r hmake hreads _ => heq r hmake hreads)
      fun h => absurd trivial h
  rwa [and_true] at hiff

/-! ## The value of the body -/

omit hmirrors hload [HashOrder] [UnstableSort] in
/-- The tree that a callback answers to a value of the body, and without one. -/
theorem always_withBody {α : Type} {P : α → Prop} {E : Failure → Prop} {missing : α}
    {query : RValue → CoreM α} (hmissing : P missing) (hquery : ∀ v, (query v).Always P E) :
    (req.withBody missing query).Always P E := by
  unfold HttpRouter.Request.withBody
  split
  · exact Prog.Always.pure hmissing
  · exact hquery _

omit hmirrors hload [HashOrder] [UnstableSort] in
/-- Both interfaces hand the same value of a body to the query. -/
theorem withBody_eq {α : Type} {r : Request} (hreads : ReadsAlike route req r) {missing : α}
    {query query' : RValue → CoreM α} (h : ∀ v, load req.bodyText = some v → query v = query' v) :
    withBody r missing query = req.withBody missing query' := by
  unfold withBody HttpRouter.Request.withBody
  simp only [hreads.bodyJson, ofExcept, pure_bind]
  cases hbody : load req.bodyText with
  | none => rfl
  | some v => exact h v hbody

end

end

end Routing

end Quarks
