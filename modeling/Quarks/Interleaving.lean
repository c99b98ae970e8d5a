import Quarks.Basis.Pool
import Quarks.Core.Serve

/-!
# Requests that are served at the same time

The HTTP server runs on several threads. Each request is a program over the atomic
operations, and a schedule picks the request that performs its next operation. A
thread that wants a mutex waits while it is locked.
-/

namespace Quarks

open Basis

/-- A thread can go on: it waits only for a mutex that is locked. -/
def enabled : Op → World → Bool
  | .lock m, w => !w.locked m
  | _, _ => true

/-- An operation that has been performed, with its answer. -/
abbrev Event := (op : Op) × Res op

/-- A process with the operations performed so far, oldest first, and who performed them. -/
abbrev LoggedWorld (ι : Type) := World × List (ι × Event)

/-- Requests that are being served. -/
abbrev Requests (ι α : Type) := Pool Res ι (LoggedWorld ι) Failure α

section

variable {ι α : Type}

/-- The requests when they have all arrived and none has done anything. -/
def arrived (w : World) (progs : ι → CoreM α) : Requests ι α := ⟨(w, []), progs⟩

variable [DecidableEq ι]

/-- Serve the requests by a schedule. -/
def interleave (faults : Faults) (p : Requests ι α) (schedule : List ι) : Requests ι α :=
  p.run (fun i => (handle faults).recorded i) (fun op s => enabled op s.1) schedule

/-- Each turn of the schedule meets a condition on the requests as it finds them. -/
def EachTurnMeets (faults : Faults) (C : Requests ι α → ι → Prop) (p : Requests ι α)
    (schedule : List ι) : Prop :=
  p.EachTurn (fun i => (handle faults).recorded i) (fun op s => enabled op s.1) C schedule

instance (faults : Faults) (C : Requests ι α → ι → Prop) [∀ p i, Decidable (C p i)]
    (p : Requests ι α) (schedule : List ι) : Decidable (EachTurnMeets faults C p schedule) :=
  Pool.EachTurn.decidable _ _ p schedule

/-- The requests after one of them has performed an operation. -/
def performed (faults : Faults) (p : Requests ι α) (i : ι) (op : Op)
    (next : Res op → CoreM α) : Requests ι α :=
  ⟨((handle faults op p.state.1).2, p.state.2 ++ [(i, ⟨op, (handle faults op p.state.1).1⟩)]),
    Function.update p.progs i (next (handle faults op p.state.1).1)⟩

@[simp] theorem performed_progs_self (faults : Faults) (p : Requests ι α) (i : ι) (op : Op)
    (next : Res op → CoreM α) :
    (performed faults p i op next).progs i = next (handle faults op p.state.1).1 :=
  Function.update_self _ _ _

/-- The other requests stand where they stood. -/
theorem performed_progs_of_ne (faults : Faults) (p : Requests ι α) {i j : ι} (hj : j ≠ i) (op : Op)
    (next : Res op → CoreM α) : (performed faults p i op next).progs j = p.progs j :=
  Function.update_of_ne hj _ _

/-- What every operation preserves, if its turn meets the condition, holds whenever such
a schedule is interrupted. -/
theorem interleave_of_eachTurn {faults : Faults} {I : Requests ι α → Prop}
    {C : Requests ι α → ι → Prop}
    (hstep : ∀ p i op next, I p → C p i → p.progs i = .call op next →
      I (performed faults p i op next))
    {p : Requests ι α} (hp : I p) {schedule : List ι}
    (hturns : EachTurnMeets faults C p schedule) {done : List ι} (hdone : done <+: schedule) :
    I (interleave faults p done) :=
  Pool.run_of_eachTurn (fun p i op next hp hC hprog _ => hstep p i op next hp hC hprog) hp hturns
    hdone

/-! ## Mutexes -/

theorem handle_locked (faults : Faults) {m : Mutex} {op : Op} (hlock : op ≠ .lock m)
    (hunlock : op ≠ .unlock m) (w : World) : (handle faults op w).2.locked m = w.locked m := by
  cases op with
  | lock m' =>
    have hne : m ≠ m' := fun h => hlock (h ▸ rfl)
    simp [handle, Function.update_of_ne hne]
  | unlock m' =>
    have hne : m ≠ m' := fun h => hunlock (h ▸ rfl)
    simp [handle, Function.update_of_ne hne]
  | put key value | delete key | write keys =>
    simp only [handle]
    split <;> rfl
  | getCached key =>
    simp only [handle]
    split <;> rfl
  | _ => rfl

/-- A mutex guards a section in which there is one request at most. -/
theorem guards_mutex (ι : Type) (faults : Faults) (m : Mutex) :
    Pool.Guards (fun i : ι => (handle faults).recorded i) (fun op s => enabled op s.1)
      (.lock m) (.unlock m) fun s => s.1.locked m = true where
  free h := by simpa [enabled] using h
  acquired i s := by simp [Prog.Handler.recorded, handle]
  released i s := by simp [Prog.Handler.recorded, handle]
  kept i s op hlock hunlock h := by
    rw [← h]
    exact handle_locked faults hlock hunlock s.1

end

/-- A program that does not use the mutex itself is guarded by it. -/
theorem guarded_withLock {α : Type} {m : Mutex} {P : Except Failure α → Prop} {p : CoreM α}
    (hp : p.Ends (fun op => op ≠ .lock m ∧ op ≠ .unlock m) P) :
    Pool.Guarded (.lock m) (.unlock m) (withLock m p) := by
  refine ⟨_, rfl, fun _ => ?_⟩
  change Pool.Inside _ _ (Prog.bind (Prog.tryCatch p _) _)
  induction p with
  | pure a => exact Or.inl ⟨rfl, fun _ => rfl⟩
  | throw e => exact Or.inl ⟨rfl, fun _ => rfl⟩
  | call op next ih => exact Or.inr ⟨hp.1.1, hp.1.2, fun r => ih r (hp.2 r)⟩

/-- The operations of a program that runs under a mutex. -/
theorem trace_withLock {α : Type} (faults : Faults) (m : Mutex) (p : CoreM α) (w : World) :
    (withLock m p).trace (handle faults) w = ⟨.lock m, ()⟩ ::
      (p.trace (handle faults) (handle faults (.lock m) w).2 ++ [⟨.unlock m, ()⟩]) := by
  change ⟨Op.lock m, ()⟩ :: Prog.trace (handle faults) (tryCatch p _ >>= _) _ = _
  rw [Prog.trace_bind, Prog.trace_tryCatch, Prog.run_tryCatch]
  rcases hrun : p.run (handle faults) (handle faults (.lock m) w).2 with ⟨_ | _, w'⟩
  · simp
    rfl
  · simp
    rfl

/-! ## What follows a change of the database -/

/-- The operations by which a change is passed on. -/
def Op.Announces : Op → Prop
  | .putCached _ _ | .publish _ | .http _ | .lock .put | .unlock .put => True
  | _ => False

section

variable [HashOrder] (c : Config)

theorem putRequest_ends (key value : Bytes) :
    (putRequest c key value).Ends Op.Announces (fun r => r = .ok ()) := by
  rcases c with ⟨_, _ | _, _ | _, _ | _⟩ <;>
    repeat' first | exact rfl | refine ⟨trivial, fun _ => ?_⟩

/-- The change, and then what passes it on. -/
theorem commitPut_ends (key value : Bytes) :
    (commitPut c key value).Ends (fun op => op = .put key value ∨ op.Announces)
      fun r => r.isOk = true := by
  refine ⟨Or.inl rfl, fun ok => ?_⟩
  cases ok with
  | false => exact rfl
  | true =>
    refine Prog.Ends.bind (P := fun r => r = .ok ()) ?_ (fun _ _ => rfl) fun e he => by cases he
    exact (putRequest_ends c key value).mono (fun _ h => Or.inr h) fun _ h => h

theorem dumpPair_ends (key value : Bytes) :
    (dumpPair c key value).Ends (fun op => op = .put key value ∨ op.Announces)
      fun r => r.isOk = true := by
  unfold dumpPair
  split
  · refine (commitPut_ends c key value).bind (fun ok _ => ?_) fun _ h => h
    cases ok <;> exact rfl
  · exact rfl

end

end Quarks
