import Mathlib.Logic.Function.Basic
import Mathlib.Data.List.Basic

/-!
# Programs over atomic operations

A program is a tree of atomic operations: it stops with a result, stops with an
exception, or calls an operation and goes on with the answer. One definition of
a program is run in two ways. Run alone, a handler answers its operations one
after the other. Run in a pool with others, each step performs one operation of
one program, so that every interleaving of the operations is a run of the pool.
-/

namespace Basis

variable {Op : Type} {Res : Op → Type} {ε σ : Type}

/-- A program that calls operations of `Op` and ends with a result or an exception. -/
inductive Prog {Op : Type} (Res : Op → Type) (ε α : Type) : Type
  | pure (a : α)
  | throw (e : ε)
  | call (op : Op) (next : Res op → Prog Res ε α)

namespace Prog

variable {α β γ : Type}

/-- Run one program and hand its result to the next; an exception skips the rest. -/
def bind : Prog Res ε α → (α → Prog Res ε β) → Prog Res ε β
  | .pure a, f => f a
  | .throw e, _ => .throw e
  | .call op next, f => .call op fun r => (next r).bind f

/-- Run a program and, if it ends with an exception, continue with the handler for it. -/
def tryCatch : Prog Res ε α → (ε → Prog Res ε α) → Prog Res ε α
  | .pure a, _ => .pure a
  | .throw e, f => f e
  | .call op next, f => .call op fun r => (next r).tryCatch f

/-- The program that calls one operation and returns its answer. -/
def lift (op : Op) : Prog Res ε (Res op) := .call op .pure

instance : Monad (Prog Res ε) where
  pure := .pure
  bind := .bind

instance : MonadExceptOf ε (Prog Res ε) where
  throw := .throw
  tryCatch := .tryCatch

theorem bind_pure (p : Prog Res ε α) : p.bind .pure = p := by
  induction p with
  | pure a => rfl
  | throw e => rfl
  | call op next ih => exact congrArg _ (funext ih)

theorem bind_assoc (p : Prog Res ε α) (f : α → Prog Res ε β) (g : β → Prog Res ε γ) :
    (p.bind f).bind g = p.bind fun a => (f a).bind g := by
  induction p with
  | pure a => rfl
  | throw e => rfl
  | call op next ih => exact congrArg _ (funext ih)

instance : LawfulMonad (Prog Res ε) :=
  LawfulMonad.mk' (Prog Res ε) bind_pure (fun _ _ => rfl) bind_assoc

/-- The answers to operations, as a function of a state that they may change. -/
abbrev Handler (Res : Op → Type) (σ : Type) := (op : Op) → σ → Res op × σ

/-- Run a program alone. An exception ends it but keeps the state reached. -/
def run (h : Handler Res σ) : Prog Res ε α → σ → Except ε α × σ
  | .pure a, s => (.ok a, s)
  | .throw e, s => (.error e, s)
  | .call op next, s => (next (h op s).1).run h (h op s).2

section Run

variable (h : Handler Res σ)

@[simp] theorem run_pure (a : α) (s : σ) :
    run h (Pure.pure a : Prog Res ε α) s = (.ok a, s) := rfl

@[simp] theorem run_throw (e : ε) (s : σ) :
    run h (MonadExcept.throw e : Prog Res ε α) s = (.error e, s) := rfl

@[simp] theorem run_lift (op : Op) (s : σ) :
    run h (lift op : Prog Res ε (Res op)) s = (.ok (h op s).1, (h op s).2) := rfl

/-- Sequencing runs the second program from where the first one left the state. -/
theorem run_bind (p : Prog Res ε α) (f : α → Prog Res ε β) (s : σ) :
    run h (p >>= f) s = match run h p s with
      | (.ok a, s') => run h (f a) s'
      | (.error e, s') => (.error e, s') := by
  change run h (p.bind f) s = _
  induction p generalizing s with
  | pure a => rfl
  | throw e => rfl
  | call op next ih => exact ih _ _

/-- A caught exception keeps the state reached when it was raised. -/
theorem run_tryCatch (p : Prog Res ε α) (f : ε → Prog Res ε α) (s : σ) :
    run h (MonadExcept.tryCatch p f) s = match run h p s with
      | (.ok a, s') => (.ok a, s')
      | (.error e, s') => run h (f e) s' := by
  change run h (p.tryCatch f) s = _
  induction p generalizing s with
  | pure a => rfl
  | throw e => rfl
  | call op next ih => exact ih _ _

variable {h} in
theorem run_bind_ok {p : Prog Res ε α} {f : α → Prog Res ε β} {s s' : σ} {a : α}
    (hp : run h p s = (.ok a, s')) : run h (p >>= f) s = run h (f a) s' := by
  rw [run_bind, hp]

variable {h} in
theorem run_bind_error {p : Prog Res ε α} {f : α → Prog Res ε β} {s s' : σ} {e : ε}
    (hp : run h p s = (.error e, s')) : run h (p >>= f) s = (.error e, s') := by
  rw [run_bind, hp]

variable {h} in
/-- What no operation changes is the same after a run. -/
theorem run_eq_of_forall {τ : Type} {f : σ → τ} (hop : ∀ op s, f (h op s).2 = f s)
    (p : Prog Res ε α) (s : σ) : f (run h p s).2 = f s := by
  induction p generalizing s with
  | pure a => rfl
  | throw e => rfl
  | call op next ih => exact (ih _ _).trans (hop op s)

end Run

/-- Run from a state with the first property, a program that returns a result ends
in a state with the second one, and a program that raises an exception in a state
with the third one. -/
def Triple (h : Handler Res σ) (I : σ → Prop) (p : Prog Res ε α) (J : α → σ → Prop)
    (E : ε → σ → Prop) : Prop :=
  ∀ s, I s → match run h p s with
    | (.ok a, s') => J a s'
    | (.error e, s') => E e s'

namespace Triple

variable {h : Handler Res σ} {I : σ → Prop} {E : ε → σ → Prop}

theorem pure {J : α → σ → Prop} {a : α} (hJ : ∀ s, I s → J a s) :
    Triple h I (Pure.pure a : Prog Res ε α) J E := hJ

theorem throw {J : α → σ → Prop} {e : ε} (hE : ∀ s, I s → E e s) :
    Triple h I (MonadExcept.throw e : Prog Res ε α) J E := hE

theorem lift {op : Op} {J : Res op → σ → Prop} (hop : ∀ s, I s → J (h op s).1 (h op s).2) :
    Triple h I (Prog.lift op : Prog Res ε (Res op)) J E := hop

/-- The second program starts where the first one returned; it is not run after an exception. -/
theorem bind {M : α → σ → Prop} {J : β → σ → Prop} {p : Prog Res ε α} {f : α → Prog Res ε β}
    (hp : Triple h I p M E) (hf : ∀ a, Triple h (M a) (f a) J E) : Triple h I (p >>= f) J E := by
  intro s hs
  have hs' := hp s hs
  rw [run_bind]
  rcases hrun : run h p s with ⟨e | a, s'⟩
  · simpa [hrun] using hs'
  · exact hf a s' (by simpa [hrun] using hs')

/-- The handler starts in the state in which the exception was raised. -/
theorem tryCatch {M : ε → σ → Prop} {J : α → σ → Prop} {p : Prog Res ε α} {f : ε → Prog Res ε α}
    (hp : Triple h I p J M) (hf : ∀ e, Triple h (M e) (f e) J E) :
    Triple h I (MonadExcept.tryCatch p f) J E := by
  intro s hs
  have hs' := hp s hs
  rw [run_tryCatch]
  rcases hrun : run h p s with ⟨e | a, s'⟩
  · exact hf e s' (by simpa [hrun] using hs')
  · simpa [hrun] using hs'

/-- The rule of consequence. -/
theorem mono {I' : σ → Prop} {J J' : α → σ → Prop} {E' : ε → σ → Prop} {p : Prog Res ε α}
    (hp : Triple h I p J E) (hI : ∀ s, I' s → I s) (hJ : ∀ a s, J a s → J' a s)
    (hE : ∀ e s, E e s → E' e s) : Triple h I' p J' E' := by
  intro s hs
  have hs' := hp s (hI s hs)
  rcases hrun : run h p s with ⟨e | a, s'⟩
  · exact hE e s' (by simpa [hrun] using hs')
  · exact hJ a s' (by simpa [hrun] using hs')

end Triple

/-! ## What a program can end with -/

/-- Whatever is answered to the operations of a program, its result has the first property, and
its exception the second one. -/
def Always (P : α → Prop) (E : ε → Prop) : Prog Res ε α → Prop
  | .pure a => P a
  | .throw e => E e
  | .call _ next => ∀ r, (next r).Always P E

namespace Always

variable {P : α → Prop} {Q : β → Prop} {E F : ε → Prop} {p : Prog Res ε α}

theorem pure {a : α} (h : P a) : (Pure.pure a : Prog Res ε α).Always P E := h

theorem throw {e : ε} (h : E e) : (MonadExcept.throw e : Prog Res ε α).Always P E := h

theorem mono {P' : α → Prop} (h : p.Always P E) (hP : ∀ a, P a → P' a) (hE : ∀ e, E e → F e) :
    p.Always P' F := by
  induction p with
  | pure a => exact hP a h
  | throw e => exact hE e h
  | call op next ih => exact fun r => ih r (h r)

theorem bind {f : α → Prog Res ε β} (hp : p.Always P E) (hf : ∀ a, P a → (f a).Always Q E) :
    (p >>= f).Always Q E := by
  change (p.bind f).Always Q E
  induction p with
  | pure a => exact hf a hp
  | throw e => exact hp
  | call op next ih => exact fun r => ih r (hp r)

theorem tryCatch {f : ε → Prog Res ε α} (hp : p.Always P E) (hf : ∀ e, E e → (f e).Always P F) :
    (MonadExcept.tryCatch p f).Always P F := by
  change (p.tryCatch f).Always P F
  induction p with
  | pure a => exact hp
  | throw e => exact hf e hp
  | call op next ih => exact fun r => ih r (hp r)

/-- Nothing is said about the program. -/
theorem any (p : Prog Res ε α) : p.Always (fun _ => True) fun _ => True := by
  induction p with
  | pure a => exact trivial
  | throw e => exact trivial
  | call op next ih => exact ih

/-- An operation may be answered anything. -/
theorem lift (op : Op) : (Prog.lift op : Prog Res ε (Res op)).Always (fun _ => True) E :=
  fun _ => trivial

theorem of_run_ok {h : Handler Res σ} {s : σ} {a : α} (hp : p.Always P E)
    (hrun : (p.run h s).1 = .ok a) : P a := by
  induction p generalizing s with
  | pure a =>
    cases hrun
    exact hp
  | throw e => cases hrun
  | call op next ih => exact ih _ (hp _) hrun

/-- A handler of exceptions that is never called changes nothing. -/
theorem tryCatch_eq {f : ε → Prog Res ε α} (hp : p.Always P E)
    (hf : ∀ e, E e → f e = MonadExcept.throw e) : MonadExcept.tryCatch p f = p := by
  change p.tryCatch f = p
  induction p with
  | pure a => rfl
  | throw e => exact hf e hp
  | call op next ih => exact congrArg _ (funext fun r => ih r (hp r))

end Always

/-! ## The operations of a run -/

/-- Each operation that a program performs meets a condition on the state that it finds. -/
def EachOp (h : Handler Res σ) (C : σ → Op → Prop) : Prog Res ε α → σ → Prop
  | .pure _, _ => True
  | .throw _, _ => True
  | .call op next, s => C s op ∧ (next (h op s).1).EachOp h C (h op s).2

instance EachOp.decidable {h : Handler Res σ} {C : σ → Op → Prop} [∀ s op, Decidable (C s op)] :
    (p : Prog Res ε α) → (s : σ) → Decidable (p.EachOp h C s)
  | .pure _, _ => isTrue trivial
  | .throw _, _ => isTrue trivial
  | .call op next, s =>
    have : Decidable ((next (h op s).1).EachOp h C (h op s).2) := EachOp.decidable _ _
    inferInstanceAs (Decidable (C s op ∧ (next (h op s).1).EachOp h C (h op s).2))

/-- An invariant that each operation preserves, if it meets a condition, holds after the
run, and what follows from the two holds of each operation. -/
theorem EachOp.run {h : Handler Res σ} {I : σ → Prop} {C D : σ → Op → Prop}
    (hop : ∀ s op, I s → C s op → D s op ∧ I (h op s).2) {p : Prog Res ε α} {s : σ} (hs : I s)
    (hp : p.EachOp h C s) : p.EachOp h D s ∧ I (p.run h s).2 := by
  induction p generalizing s with
  | pure a => exact ⟨trivial, hs⟩
  | throw e => exact ⟨trivial, hs⟩
  | call op next ih =>
    obtain ⟨hD, hI⟩ := hop s op hs hp.1
    obtain ⟨hrest, hfinal⟩ := ih _ hI hp.2
    exact ⟨⟨hD, hrest⟩, hfinal⟩

/-- A handler together with an observer, which sees every operation. -/
def Handler.observed {τ : Type} (h : Handler Res σ) (observe : Op → τ → τ) :
    Handler Res (σ × τ) :=
  fun op s => ((h op s.1).1, (h op s.1).2, observe op s.2)

/-- The observer does not change what a program does. -/
theorem run_observed {τ : Type} (h : Handler Res σ) (observe : Op → τ → τ) (p : Prog Res ε α)
    (s : σ × τ) : (p.run (h.observed observe) s).1 = (p.run h s.1).1 ∧
      (p.run (h.observed observe) s).2.1 = (p.run h s.1).2 := by
  induction p generalizing s with
  | pure a => exact ⟨rfl, rfl⟩
  | throw e => exact ⟨rfl, rfl⟩
  | call op next ih => exact ih _ _

end Prog

end Basis
