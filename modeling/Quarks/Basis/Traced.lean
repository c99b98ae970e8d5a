import Mathlib.Data.List.Basic

/-!
# Runs with a trace

A run leaves a trace of events and ends with a result, or goes wrong: what it would do next is
not defined, and the trace ends there. What all events of a run are to satisfy is shown part by
part.
-/

namespace Basis

/-- A run: its events in their order, and its result unless it has gone wrong. -/
structure Traced (ε α : Type) where
  events : List ε
  result : Option α

namespace Traced

variable {ε α β : Type}

/-- The run that leaves one event. -/
def emit (e : ε) : Traced ε Unit := ⟨[e], some ()⟩

/-- The run that goes wrong. -/
def goWrong : Traced ε α := ⟨[], none⟩

/-- Hand the result of one run to the next. -/
def bind (r : Traced ε α) (f : α → Traced ε β) : Traced ε β :=
  match r.result with
  | some a => ⟨r.events ++ (f a).events, (f a).result⟩
  | none => ⟨r.events, none⟩

instance : Monad (Traced ε) where
  pure a := ⟨[], some a⟩
  bind := bind

/-- All events of the run are of a kind. -/
def All (P : ε → Prop) (r : Traced ε α) : Prop := ∀ e ∈ r.events, P e

instance (P : ε → Prop) [DecidablePred P] (r : Traced ε α) : Decidable (r.All P) :=
  inferInstanceAs (Decidable (∀ e ∈ r.events, P e))

variable {P : ε → Prop}

@[simp] theorem all_pure (a : α) : (pure a : Traced ε α).All P :=
  fun e he => by cases he

@[simp] theorem all_goWrong : (goWrong : Traced ε α).All P :=
  fun e he => by cases he

@[simp] theorem all_emit {e : ε} : (emit e).All P ↔ P e := by
  simp [All, emit]

/-- The events of two runs after each other are those of the first and, if it ends, those of the
second. -/
theorem all_bind {r : Traced ε α} {f : α → Traced ε β} :
    (r >>= f).All P ↔ r.All P ∧ ∀ a, r.result = some a → (f a).All P := by
  change (r.bind f).All P ↔ _
  cases hr : r.result with
  | none => simp [All, bind, hr]
  | some a =>
    simp only [All, bind, hr, List.forall_mem_append, Option.some.injEq, forall_eq']

/-- An event in front of a run. -/
theorem all_emit_bind {e : ε} {f : Unit → Traced ε β} :
    (emit e >>= f).All P ↔ P e ∧ (f ()).All P := by
  rw [all_bind, all_emit]
  exact and_congr_right fun _ => ⟨fun h => h () rfl, fun h _ _ => h⟩

@[simp] theorem result_pure (a : α) : (pure a : Traced ε α).result = some a := rfl

/-- The result of two runs after each other. -/
theorem result_bind {r : Traced ε α} {f : α → Traced ε β} :
    (r >>= f).result = r.result.bind fun a => (f a).result := by
  change (r.bind f).result = _
  cases hr : r.result <;> simp [bind, hr]

theorem result_emit_bind {e : ε} {f : Unit → Traced ε β} :
    (emit e >>= f).result = (f ()).result := by
  rw [result_bind]
  rfl

/-- If the run ends, its result is of a kind. -/
def Ends (P : α → Prop) (r : Traced ε α) : Prop := ∀ a, r.result = some a → P a

theorem ends_true {r : Traced ε α} : r.Ends fun _ => True := fun _ _ => trivial

theorem Ends.pure {P : α → Prop} {a : α} (h : P a) : (Pure.pure a : Traced ε α).Ends P :=
  fun _ ha => Option.some.inj ha ▸ h

theorem ends_goWrong {P : α → Prop} : (goWrong : Traced ε α).Ends P :=
  fun _ ha => by cases ha

theorem Ends.bind {P : α → Prop} {Q : β → Prop} {r : Traced ε α} {f : α → Traced ε β}
    (h : r.Ends P) (hf : ∀ a, P a → (f a).Ends Q) : (r >>= f).Ends Q := by
  intro b hb
  rw [result_bind] at hb
  obtain ⟨a, ha, hb⟩ := Option.bind_eq_some_iff.mp hb
  exact hf a (h a ha) b hb

/-- What is known of the result of a run may be used for the events of the next. -/
theorem All.bind {Q : α → Prop} {r : Traced ε α} {f : α → Traced ε β} (h : r.All P)
    (hends : r.Ends Q) (hf : ∀ a, Q a → (f a).All P) : (r >>= f).All P :=
  all_bind.mpr ⟨h, fun a ha => hf a (hends a ha)⟩

end Traced

end Basis
