import Quarks.Basis.Traced

/-!
# Iterators

An iterator of a list is the number of the elements before it. It cannot be moved back from the
first element, and it can neither be moved on nor be read behind the last one. A loop that uses
iterators is run for a number of turns, so that it can be said that it ends.
-/

namespace Basis

/-- What is done with an iterator. -/
inductive IteratorUse
  | decrement (place : ℕ)
  | increment (place : ℕ)
  | dereference (place : ℕ)
  deriving DecidableEq

/-- The use is defined on a list with so many elements. -/
def IteratorUse.InBounds (size : ℕ) : IteratorUse → Prop
  | .decrement place => place ≠ 0
  | .increment place | .dereference place => place < size

instance (size : ℕ) : DecidablePred (IteratorUse.InBounds size)
  | .decrement place => inferInstanceAs (Decidable (place ≠ 0))
  | .increment place | .dereference place => inferInstanceAs (Decidable (place < size))

variable {α β : Type}

/-- Move an iterator back. -/
def decrement (place : ℕ) : Traced IteratorUse ℕ := do
  .emit (.decrement place)
  if place = 0 then .goWrong else return place - 1

/-- Move an iterator on. -/
def increment (size place : ℕ) : Traced IteratorUse ℕ := do
  .emit (.increment place)
  if place < size then return place + 1 else .goWrong

/-- The element that an iterator points to. -/
def dereference (l : List α) (place : ℕ) : Traced IteratorUse α := do
  .emit (.dereference place)
  match l[place]? with
  | some a => return a
  | none => .goWrong

/-- A run for a number of turns uses iterators only where that is defined, and it ends if it gets
enough turns. -/
structure IteratesInBounds (size : ℕ) (run : ℕ → Traced IteratorUse (Option α)) : Prop where
  inBounds : ∀ turns, (run turns).All (IteratorUse.InBounds size)
  ends : ∃ turns r, (run turns).result = some (some r)

/-! ## Results -/

@[simp] theorem result_decrement (place : ℕ) :
    (decrement place).result = if place = 0 then none else some (place - 1) := by
  rw [decrement, Traced.result_emit_bind]
  split <;> rfl

@[simp] theorem result_increment (size place : ℕ) :
    (increment size place).result = if place < size then some (place + 1) else none := by
  rw [increment, Traced.result_emit_bind]
  split <;> rfl

@[simp] theorem result_dereference (l : List α) (place : ℕ) :
    (dereference l place).result = l[place]? := by
  rw [dereference, Traced.result_emit_bind]
  cases l[place]? <;> rfl

/-! ## Uses that are defined -/

/-- A run that does not go wrong uses iterators only where that is defined. -/
def Guarded (size : ℕ) (r : Traced IteratorUse α) : Prop :=
  r.result.isSome = true → r.All (IteratorUse.InBounds size)

variable {size : ℕ}

theorem guarded_pure (a : α) : Guarded size (pure a) := fun _ => Traced.all_pure a

theorem guarded_goWrong : Guarded size (.goWrong : Traced IteratorUse α) :=
  fun _ => Traced.all_goWrong

theorem guarded_decrement (place : ℕ) : Guarded size (decrement place) := by
  intro h
  rw [result_decrement] at h
  split at h
  · cases h
  · next hplace =>
    rw [decrement, Traced.all_emit_bind, if_neg hplace]
    exact ⟨hplace, Traced.all_pure _⟩

theorem guarded_increment (place : ℕ) : Guarded size (increment size place) := by
  intro h
  rw [result_increment] at h
  split at h
  · next hplace =>
    rw [increment, Traced.all_emit_bind, if_pos hplace]
    exact ⟨hplace, Traced.all_pure _⟩
  · cases h

theorem guarded_dereference (l : List α) (place : ℕ) :
    Guarded l.length (dereference l place) := by
  intro h
  rw [result_dereference] at h
  rw [dereference, Traced.all_emit_bind]
  refine ⟨(List.getElem?_eq_some_iff.mp (Option.some_get h).symm).1, ?_⟩
  cases l[place]? with
  | some a => exact Traced.all_pure a
  | none => exact Traced.all_goWrong

theorem Guarded.bind {r : Traced IteratorUse α} {f : α → Traced IteratorUse β}
    (h : Guarded size r) (hf : ∀ a, Guarded size (f a)) : Guarded size (r >>= f) := by
  intro hsome
  rw [Traced.result_bind] at hsome
  refine Traced.all_bind.mpr ⟨h (Option.isSome_of_isSome_bind hsome), fun a ha => hf a ?_⟩
  rwa [ha, Option.bind_some] at hsome

/-- If further turns change nothing after a run has ended or gone wrong, it stays in bounds
exactly if it ends. -/
theorem iteratesInBounds_iff {run : ℕ → Traced IteratorUse (Option α)}
    (hguarded : ∀ turns, Guarded size (run turns))
    (hmono : ∀ turns turns', turns ≤ turns' → (run turns).result ≠ some none →
      (run turns').result = (run turns).result) :
    IteratesInBounds size run ↔ ∃ turns r, (run turns).result = some (some r) := by
  refine ⟨IteratesInBounds.ends, fun hends => ⟨fun turns => hguarded turns ?_, hends⟩⟩
  obtain ⟨last, r, hr⟩ := hends
  by_contra hwrong
  rw [Bool.not_eq_true, Option.isSome_eq_false_iff, Option.isNone_iff_eq_none] at hwrong
  rcases Nat.le_total turns last with hle | hle
  · have := hmono turns last hle (by simp [hwrong])
    rw [hr, hwrong] at this
    cases this
  · have := hmono last turns hle (by simp [hr])
    rw [hr, hwrong] at this
    cases this

end Basis
