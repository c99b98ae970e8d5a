import Quarks.Basis.Pool
import Mathlib.Algebra.BigOperators.Group.Finset.Basic

/-!
# Protocols

A protocol has stages, and says which stage an operation and its answer may lead to. A
program follows a protocol if each operation that it performs has a move from the stage
reached. What every move preserves then holds whenever such programs run in a pool: the
programs are forgotten, only their stages are left.
-/

namespace Basis

namespace Prog

variable {Op : Type} {Res : Op → Type} {ε α β G : Type}

/-- The moves of a protocol: an operation with its answer leads from a stage to others. -/
abbrev Moves (Res : Op → Type) (G : Type) := G → (op : Op) → Res op → G → Prop

/-- The program moves on with every answer that is possible, and ends in a stage of one kind. -/
def Follows (moves : Moves Res G) (answers : (op : Op) → Res op → Prop)
    (ends : Except ε α → G → Prop) : Prog Res ε α → G → Prop
  | .pure a, g => ends (.ok a) g
  | .throw e, g => ends (.error e) g
  | .call op next, g => ∀ r, answers op r → ∃ g', moves g op r g' ∧
      (next r).Follows moves answers ends g'

namespace Follows

variable {moves : Moves Res G} {answers : (op : Op) → Res op → Prop} {g : G}
  {ends : Except ε α → G → Prop} {ends' : Except ε β → G → Prop}

theorem pure {a : α} (h : ends (.ok a) g) :
    Follows moves answers ends (Pure.pure a : Prog Res ε α) g := h

theorem throw {e : ε} (h : ends (.error e) g) :
    Follows moves answers ends (MonadExcept.throw e : Prog Res ε α) g := h

/-- One operation, and then the rest of the program. -/
theorem lift_bind {op : Op} {f : Res op → Prog Res ε α}
    (h : ∀ r, answers op r → ∃ g', moves g op r g' ∧ Follows moves answers ends (f r) g') :
    Follows moves answers ends (Prog.lift op >>= f) g := h

/-- The second program starts in the stage in which the first one ended. -/
theorem bind {p : Prog Res ε α} {f : α → Prog Res ε β} (hp : Follows moves answers ends p g)
    (hf : ∀ a g, ends (.ok a) g → Follows moves answers ends' (f a) g)
    (he : ∀ e g, ends (.error e) g → ends' (.error e) g) :
    Follows moves answers ends' (p >>= f) g := by
  change Follows moves answers ends' (p.bind f) g
  induction p generalizing g with
  | pure a => exact hf a g hp
  | throw e => exact he e g hp
  | call op next ih =>
    intro r hr
    obtain ⟨g', hmove, hnext⟩ := hp r hr
    exact ⟨g', hmove, ih r hnext⟩

/-- The handler starts in the stage in which the exception was raised. -/
theorem tryCatch {p : Prog Res ε α} {f : ε → Prog Res ε α} {ends' : Except ε α → G → Prop}
    (hp : Follows moves answers ends p g) (hok : ∀ a g, ends (.ok a) g → ends' (.ok a) g)
    (hf : ∀ e g, ends (.error e) g → Follows moves answers ends' (f e) g) :
    Follows moves answers ends' (MonadExcept.tryCatch p f) g := by
  change Follows moves answers ends' (p.tryCatch f) g
  induction p generalizing g with
  | pure a => exact hok a g hp
  | throw e => exact hf e g hp
  | call op next ih =>
    intro r hr
    obtain ⟨g', hmove, hnext⟩ := hp r hr
    exact ⟨g', hmove, ih r hnext⟩

theorem mono {p : Prog Res ε α} {ends' : Except ε α → G → Prop}
    (hp : Follows moves answers ends p g) (h : ∀ r g, ends r g → ends' r g) :
    Follows moves answers ends' p g := by
  induction p generalizing g with
  | pure a => exact h _ g hp
  | throw e => exact h _ g hp
  | call op next ih =>
    intro r hr
    obtain ⟨g', hmove, hnext⟩ := hp r hr
    exact ⟨g', hmove, ih r hnext⟩

/-- From a stage that every move may lead back to, all programs follow the protocol. -/
theorem stay (hmoves : ∀ op r, moves g op r g) (hends : ∀ r, ends r g) (p : Prog Res ε α) :
    Follows moves answers ends p g := by
  induction p with
  | pure a => exact hends _
  | throw e => exact hends _
  | call op next ih => exact fun r _ => ⟨g, hmoves op r, ih r⟩

/-- A program that has ended stands in a stage of that kind. -/
theorem of_outcome {p : Prog Res ε α} {r : Except ε α} (hp : Follows moves answers ends p g)
    (h : p.outcome = some r) : ends r g := by
  cases p with
  | pure a => exact Option.some.inj h ▸ hp
  | throw e => exact Option.some.inj h ▸ hp
  | call op next => cases h

end Follows

end Prog

namespace Pool

open Prog (Moves Follows)

variable {Op : Type} {Res : Op → Type} {ι σ ε α G : Type} [DecidableEq ι]
  {h : ι → Prog.Handler Res σ} {enabled : Op → σ → Bool}

/-- The operation that is next meets a condition on the state. -/
def NextMeets (C : σ → Op → Prop) (p : Pool Res ι σ ε α) (i : ι) : Prop :=
  match (p.progs i).next? with
  | some op => C p.state op
  | none => True

instance {C : σ → Op → Prop} [∀ s op, Decidable (C s op)] (p : Pool Res ι σ ε α) (i : ι) :
    Decidable (NextMeets C p i) :=
  match h : (p.progs i).next? with
  | some op => decidable_of_iff (C p.state op) (by simp only [NextMeets, h])
  | none => isTrue (by simp only [NextMeets, h])

/-- What every move preserves, if its operation meets the condition, holds in every pool
that such turns reach, for some stages of the programs. -/
theorem run_follows {moves : Moves Res G} {answers : (op : Op) → Res op → Prop}
    {ends : Except ε α → G → Prop} {J : σ → (ι → G) → Prop} {C : σ → Op → Prop}
    (hpossible : ∀ op, ∃ r, answers op r)
    (hanswers : ∀ s g i op r b, J s g → moves (g i) op r b → answers op (h i op s).1)
    (hmove : ∀ s g i op b, J s g → C s op → moves (g i) op (h i op s).1 b →
      J (h i op s).2 (Function.update g i b))
    {p : Pool Res ι σ ε α} {g : ι → G} (hJ : J p.state g)
    (hfollows : ∀ i, (p.progs i).Follows moves answers ends (g i)) {schedule : List ι}
    (hturns : EachTurn h enabled (NextMeets C) p schedule) {done : List ι}
    (hdone : done <+: schedule) :
    ∃ g, J (run h enabled p done).state g ∧
      ∀ i, ((run h enabled p done).progs i).Follows moves answers ends (g i) := by
  refine run_of_eachTurn (I := fun p => ∃ g, J p.state g ∧
    ∀ i, (p.progs i).Follows moves answers ends (g i)) ?_ ⟨g, hJ, hfollows⟩ hturns hdone
  rintro p i op next ⟨g, hJ, hfollows⟩ hC hprog -
  have hi := hfollows i
  rw [hprog] at hi
  obtain ⟨r, hr⟩ := hpossible op
  obtain ⟨b, hb, -⟩ := hi r hr
  obtain ⟨b, hb, hnext⟩ := hi _ (hanswers _ g i op r b hJ hb)
  have hmeets : C p.state op := by
    rw [NextMeets, hprog] at hC
    exact hC
  refine ⟨Function.update g i b, hmove _ g i op b hJ hmeets hb, ?_⟩
  intro j
  by_cases hj : j = i
  · subst hj
    simpa using hnext
  · simpa [Function.update_of_ne hj] using hfollows j

/-- Sums over the stages, before and after one of them changes. -/
theorem exists_sum_update {M : Type} [AddCommMonoid M] [Fintype ι] (F : G → M) (g : ι → G)
    (i : ι) : ∃ rest, ∑ j, F (g j) = F (g i) + rest ∧
      ∀ b, ∑ j, F (Function.update g i b j) = F b + rest := by
  refine ⟨∑ j ∈ Finset.univ.erase i, F (g j),
    (Finset.add_sum_erase _ _ (Finset.mem_univ i)).symm, fun b => ?_⟩
  rw [← Finset.add_sum_erase _ _ (Finset.mem_univ i), Function.update_self]
  refine congrArg _ (Finset.sum_congr rfl fun j hj => ?_)
  rw [Function.update_of_ne (Finset.ne_of_mem_erase hj)]

/-- What holds of a stage afterwards held before, or holds of the one that has changed. -/
theorem of_exists_update (Q : G → Prop) {g : ι → G} {i : ι} {b : G}
    (h : ∃ j, Q (Function.update g i b j)) : Q b ∨ ∃ j, Q (g j) := by
  obtain ⟨j, hj⟩ := h
  by_cases hji : j = i
  · subst hji
    exact Or.inl (by simpa using hj)
  · exact Or.inr ⟨j, by simpa [Function.update_of_ne hji] using hj⟩

/-- What held of all other stages, and holds of the one that has changed, holds of all. -/
theorem forall_update (Q : G → Prop) {g : ι → G} {i : ι} {b : G} (h : ∀ j, Q (g j)) (hb : Q b)
    (j : ι) : Q (Function.update g i b j) := by
  by_cases hji : j = i
  · subst hji
    simpa using hb
  · simpa [Function.update_of_ne hji] using h j

/-! ## Runs to the end -/

/-- If no operation waits, a program that is alone given turns ends. -/
theorem exists_run_alone (hen : ∀ op s, enabled op s = true) (p : Pool Res ι σ ε α) (i : ι) :
    ∃ schedule, ((run h enabled p schedule).progs i).outcome.isSome = true ∧
      ∀ j, j ≠ i → (run h enabled p schedule).progs j = p.progs j := by
  generalize hprog : p.progs i = prog
  induction prog generalizing p with
  | pure a => exact ⟨[], by rw [run, List.foldl_nil, hprog]; rfl, fun _ _ => rfl⟩
  | throw e => exact ⟨[], by rw [run, List.foldl_nil, hprog]; rfl, fun _ _ => rfl⟩
  | call op next ih =>
    have hstep : step h enabled p i = ⟨(h i op p.state).2,
        Function.update p.progs i (next (h i op p.state).1)⟩ := by
      rw [step, hprog]
      exact if_pos (hen op p.state)
    obtain ⟨schedule, hended, hothers⟩ := ih (h i op p.state).1 (step h enabled p i)
      (by rw [hstep]; exact Function.update_self ..)
    refine ⟨i :: schedule, hended, fun j hj => (hothers j hj).trans ?_⟩
    rw [hstep]
    exact Function.update_of_ne hj _ _

/-- If no operation waits, every pool of finitely many programs can be run to the end. -/
theorem exists_run_ended [Fintype ι] (hen : ∀ op s, enabled op s = true)
    (p : Pool Res ι σ ε α) :
    ∃ schedule, ∀ i, ((run h enabled p schedule).progs i).outcome.isSome = true := by
  suffices hlist : ∀ l : List ι, ∃ schedule, ∀ i ∈ l,
      ((run h enabled p schedule).progs i).outcome.isSome = true by
    obtain ⟨schedule, hended⟩ := hlist Finset.univ.toList
    exact ⟨schedule, fun i => hended i (Finset.mem_toList.mpr (Finset.mem_univ i))⟩
  intro l
  induction l with
  | nil => exact ⟨[], fun i hi => absurd hi List.not_mem_nil⟩
  | cons i l ih =>
    obtain ⟨schedule, hended⟩ := ih
    obtain ⟨alone, hi, hothers⟩ := exists_run_alone hen (run h enabled p schedule) i
    refine ⟨schedule ++ alone, fun j hj => ?_⟩
    have happend : run h enabled p (schedule ++ alone) =
        run h enabled (run h enabled p schedule) alone := List.foldl_append
    rw [happend]
    by_cases hji : j = i
    · exact hji ▸ hi
    · rw [hothers j hji]
      exact hended j ((List.mem_cons.mp hj).resolve_left hji)

end Pool

end Basis
