import Quarks.Routing.Router

/-!
# What a barrier for runtime errors lets through

A `catch` clause for runtime errors contains a program if these are all that the program
raises, whatever the calls of RocksDB answer. A program is settled by a condition if the
condition contains it, and if without the condition some answers make another exception
escape.
-/

namespace Quarks

open Basis

variable {α β : Type}

/-- A computation ends with a result or with a runtime error. -/
def RuntimeOnly (r : Except Failure α) : Prop :=
  match r with
  | .ok _ => True
  | .error f => f.isRuntimeError = true

instance (r : Except Failure α) : Decidable (RuntimeOnly r) := by
  unfold RuntimeOnly
  split <;> infer_instance

namespace RuntimeOnly

@[simp] theorem ok (a : α) : RuntimeOnly (.ok a : Except Failure α) := trivial

@[simp] theorem error {f : Failure} :
    RuntimeOnly (.error f : Except Failure α) ↔ f.isRuntimeError = true := Iff.rfl

/-- The first computation raises runtime errors only, and so does the second one on its
result. -/
theorem bind {r : Except Failure α} {f : α → Except Failure β} :
    RuntimeOnly (r.bind f) ↔ RuntimeOnly r ∧ ∀ a, r = .ok a → RuntimeOnly (f a) := by
  cases r with
  | ok a => simp [Except.bind]
  | error e => simp [Except.bind]

/-- The same in the notation of the models. -/
theorem bind_do {r : Except Failure α} {f : α → Except Failure β} :
    RuntimeOnly (r >>= f) ↔ RuntimeOnly r ∧ ∀ a, r = .ok a → RuntimeOnly (f a) :=
  bind

theorem map {r : Except Failure α} {f : α → β} : RuntimeOnly (r.map f) ↔ RuntimeOnly r := by
  cases r <;> exact Iff.rfl

theorem caught {r s : Except Failure α} (hr : RuntimeOnly r) (hs : RuntimeOnly s) :
    RuntimeOnly (Quarks.caught r s) := by
  cases r with
  | ok a => trivial
  | error f =>
    have hcaught : Quarks.caught (.error f) s = s := if_pos hr
    rwa [hcaught]

/-- The failure of a computation that ends otherwise. -/
theorem exists_of_not {r : Except Failure α} (h : ¬RuntimeOnly r) :
    ∃ f, r = .error f ∧ f.isRuntimeError = false := by
  cases r with
  | ok a => exact absurd trivial h
  | error f => exact ⟨f, rfl, by simpa using h⟩

end RuntimeOnly

/-- From these data a program ends with a result or with a runtime error. -/
def Contained (I : Node → Prop) (p : CoreM α) (J : α → Node → Prop) : Prop :=
  ∀ faults, Prog.Triple (handle faults) (fun w => I w.node) p (fun a w => J a w.node)
    fun e _ => e.isRuntimeError = true

/-- From these data a program ends with another exception. -/
def Raises (faults : Faults) (I : Node → Prop) (p : CoreM α) : Prop :=
  Prog.Triple (handle faults) (fun w => I w.node) p (fun _ _ => False)
    fun e _ => e.isRuntimeError = false

namespace Contained

variable {I : Node → Prop} {J : α → Node → Prop}

theorem pure {a : α} (h : ∀ n, I n → J a n) : Contained I (Pure.pure a) J :=
  fun _ w hw => h w.node hw

theorem bind {K : β → Node → Prop} {p : CoreM α} {f : α → CoreM β} (hp : Contained I p J)
    (hf : ∀ a, Contained (J a) (f a) K) : Contained I (p >>= f) K :=
  fun faults => Prog.Triple.bind (hp faults) fun a => hf a faults

/-- A program that raises no exception is contained. -/
theorem of_triple {p : CoreM α} (h : ∀ faults, DataTriple faults I p J fun _ => False) :
    Contained I p J :=
  fun faults => Prog.Triple.mono (h faults) (fun _ hw => hw) (fun _ _ hw => hw)
    fun _ _ hw => hw.elim

theorem mono {I' : Node → Prop} {J' : α → Node → Prop} {p : CoreM α} (h : Contained I p J)
    (hI : ∀ n, I' n → I n) (hJ : ∀ a n, J a n → J' a n) : Contained I' p J' :=
  fun faults => Prog.Triple.mono (h faults) (fun w => hI w.node) (fun a w => hJ a w.node)
    fun _ _ he => he

theorem ofExcept {r : Except Failure α} (h : RuntimeOnly r) :
    Contained I (Quarks.ofExcept r) fun a n => r = .ok a ∧ I n := by
  cases r with
  | ok a => exact fun _ w hw => ⟨rfl, hw⟩
  | error e => exact fun _ w _ => h

/-- A runtime error that is caught leaves nothing to be raised. -/
theorem catchRuntime {p q : CoreM α} (hp : Contained I p J) (hq : Contained (fun _ => True) q J) :
    Contained I (Quarks.catchRuntime p q) J := by
  refine fun faults => Prog.Triple.tryCatch (M := fun e _ => e.isRuntimeError = true)
    (hp faults) fun e w he => ?_
  rw [if_pos he]
  exact hq faults w trivial

end Contained

namespace Raises

variable {faults : Faults} {I : Node → Prop} {J : α → Node → Prop}

theorem throw {e : Failure} (h : e.isRuntimeError = false) :
    Raises faults I (MonadExcept.throw e : CoreM α) :=
  fun _ _ => h

/-- What the first program raises escapes. -/
theorem bind_left {p : CoreM α} {f : α → CoreM β} (hp : Raises faults I p) :
    Raises faults I (p >>= f) :=
  Prog.Triple.bind hp fun _ _ h => h.elim

/-- What the second program raises escapes, if the first one returns. -/
theorem bind_right {p : CoreM α} {f : α → CoreM β}
    (hp : DataTriple faults I p J fun _ => False) (hf : ∀ a, Raises faults (J a) (f a)) :
    Raises faults I (p >>= f) :=
  Prog.Triple.bind (Prog.Triple.mono hp (fun _ hw => hw) (fun _ _ hw => hw)
    fun _ _ hw => hw.elim) hf

theorem ofExcept {r : Except Failure α} (h : ¬RuntimeOnly r) :
    Raises faults I (Quarks.ofExcept r) := by
  obtain ⟨f, rfl, hf⟩ := RuntimeOnly.exists_of_not h
  exact throw hf

/-- A program with this outcome. -/
theorem of_yields {n : Node} {p : CoreM α} {e : Failure} (h : Yields faults n p (.error e))
    (he : e.isRuntimeError = false) : Raises faults (· = n) p := by
  intro w hw
  obtain ⟨hans, -⟩ := h w hw
  unfold answer at hans
  rcases hrun : Prog.run (handle faults) p w with ⟨e' | a, w'⟩
  · rw [hrun] at hans
    cases hans
    exact he
  · rw [hrun] at hans
    cases hans

/-- What the second program raises escapes, if the first one has this result. -/
theorem bind_settles {p : CoreM α} {a : α} {f : α → CoreM β}
    (hp : Settles faults I p (.ok a)) (hf : Raises faults I (f a)) : Raises faults I (p >>= f) :=
  bind_right hp.triple fun _ w hb => hb.1 ▸ hf w hb.2

theorem bind_yields {n : Node} {p : CoreM α} {a : α} {f : α → CoreM β}
    (hp : Yields faults n p (.ok a)) (hf : Raises faults (· = n) (f a)) :
    Raises faults (· = n) (p >>= f) :=
  bind_settles (I := (· = n)) hp hf

/-- A barrier for runtime errors lets it through. -/
theorem catchRuntime {p q : CoreM α} (hp : Raises faults I p) :
    Raises faults I (Quarks.catchRuntime p q) := by
  refine Prog.Triple.tryCatch hp fun e w he => ?_
  rw [if_neg (by simp [he])]
  exact he

theorem pre {I' : Node → Prop} {p : CoreM α} (hp : Raises faults I p) (hI : ∀ n, I' n → I n) :
    Raises faults I' p :=
  Prog.Triple.mono hp (fun w => hI w.node) (fun _ _ h => h) fun _ _ h => h

end Raises

/-! ## Properties that are kept -/

section

variable (faults : Faults) (I : Node → Prop)

/-- A program keeps a property of the data, and ends with one of these results or with a runtime
error. -/
def Safe (p : CoreM α) (Q : α → Prop) : Prop :=
  Prog.Triple (handle faults) (fun w => I w.node) p (fun a w => Q a ∧ I w.node)
    fun e w => e.isRuntimeError = true ∧ I w.node

/-- A program keeps a property of the data, and ends with one of these results. -/
def Returns (p : CoreM α) (Q : α → Prop) : Prop :=
  DataTriple faults I p (fun a n => Q a ∧ I n) fun _ => False

end

section

variable {faults : Faults} {I : Node → Prop} {Q : α → Prop} {R : β → Prop}

theorem Returns.safe {p : CoreM α} (h : Returns faults I p Q) : Safe faults I p Q :=
  Prog.Triple.mono h (fun _ hw => hw) (fun _ _ hw => hw) fun _ _ hw => hw.elim

theorem Returns.pure {a : α} (h : Q a) : Returns faults I (Pure.pure a) Q :=
  fun _ hw => ⟨h, hw⟩

theorem Returns.bind {p : CoreM α} {f : α → CoreM β} (hp : Returns faults I p Q)
    (hf : ∀ a, Q a → Returns faults I (f a) R) : Returns faults I (p >>= f) R :=
  Prog.Triple.bind hp fun a w hw => hf a hw.1 w hw.2

/-- A program with one outcome. -/
theorem Settles.returns {p : CoreM α} {a : α} (h : Settles faults I p (.ok a)) :
    Returns faults I p (· = a) :=
  h.triple

namespace Safe

theorem pure {a : α} (h : Q a) : Safe faults I (Pure.pure a) Q := fun _ hw => ⟨h, hw⟩

theorem mono {Q' : α → Prop} {p : CoreM α} (h : Safe faults I p Q) (hQ : ∀ a, Q a → Q' a) :
    Safe faults I p Q' :=
  Prog.Triple.mono h (fun _ hw => hw) (fun a _ hw => ⟨hQ a hw.1, hw.2⟩) fun _ _ hw => hw

theorem ofExcept {r : Except Failure α} (h : RuntimeOnly r) :
    Safe faults I (Quarks.ofExcept r) fun a => r = .ok a := by
  cases r with
  | ok a => exact fun _ hw => ⟨rfl, hw⟩
  | error e => exact fun _ hw => ⟨h, hw⟩

theorem bind {p : CoreM α} {f : α → CoreM β} (hp : Safe faults I p Q)
    (hf : ∀ a, Q a → Safe faults I (f a) R) : Safe faults I (p >>= f) R :=
  Prog.Triple.bind hp fun a w hw => hf a hw.1 w hw.2

/-- A runtime error gives way to what the handler returns. -/
theorem catchRuntime {p q : CoreM α} (hp : Safe faults I p Q) (hq : Returns faults I q Q) :
    Returns faults I (Quarks.catchRuntime p q) Q := by
  refine Prog.Triple.tryCatch hp fun e w he => ?_
  rw [if_pos he.1]
  exact hq w he.2

/-- What keeps a property of the data is contained. -/
theorem contained {p : CoreM α} (h : ∀ faults, Safe faults I p Q) :
    Contained I p fun _ => I :=
  fun faults => Prog.Triple.mono (h faults) (fun _ hw => hw) (fun _ _ hw => hw.2)
    fun _ _ hw => hw.1

end Safe

end

/-! ## What settles a program -/

/-- A program is contained on these data if a condition holds, and only then. -/
structure ContainedIff (n : Node) (p : CoreM α) (C : Prop) : Prop where
  contained : C → Contained (· = n) p fun _ _ => True
  raises : ¬C → ∃ faults, Raises faults (· = n) p

namespace ContainedIff

variable {n : Node} {C D : Prop}

theorem congr {p : CoreM α} (h : ContainedIff n p C) (hCD : C ↔ D) : ContainedIff n p D :=
  ⟨fun hD => h.contained (hCD.mpr hD), fun hD => h.raises fun hC => hD (hCD.mp hC)⟩

/-- A program that is contained whatever the data hold. -/
theorem always {p : CoreM α} (h : Contained (· = n) p fun _ _ => True) : ContainedIff n p True :=
  ⟨fun _ => h, fun hn => absurd trivial hn⟩

theorem pure {a : α} : ContainedIff n (Pure.pure a) True :=
  always (Contained.pure fun _ _ => trivial)

/-- A program with one outcome. -/
theorem of_yields {p : CoreM α} {r : Except Failure α} (h : ∀ faults, Yields faults n p r) :
    ContainedIff n p (RuntimeOnly r) := by
  constructor
  · intro hr faults w hw
    obtain ⟨hans, -⟩ := h faults w hw
    unfold answer at hans
    rcases hrun : Prog.run (handle faults) p w with ⟨e | a, w'⟩
    · rw [hrun] at hans
      subst hans
      exact hr
    · trivial
  · intro hr
    obtain ⟨f, rfl, hf⟩ := RuntimeOnly.exists_of_not hr
    exact ⟨noFaults, Raises.of_yields (h noFaults) hf⟩

/-- A program that goes on after one with a known outcome. -/
theorem bind {p : CoreM α} {r : Except Failure α} {f : α → CoreM β} {C : α → Prop}
    (hp : ∀ faults, Yields faults n p r) (hf : ∀ a, r = .ok a → ContainedIff n (f a) (C a)) :
    ContainedIff n (p >>= f) (RuntimeOnly r ∧ ∀ a, r = .ok a → C a) := by
  cases r with
  | ok a =>
    refine ContainedIff.congr (C := C a) ⟨fun hC => ?_, fun hC => ?_⟩
      ⟨fun h => ⟨trivial, fun b hb => ?_⟩, fun h => h.2 a rfl⟩
    · refine Contained.bind (Contained.of_triple fun faults => (hp faults).triple) fun b => ?_
      exact fun faults w hb => hb.1 ▸ (hf a rfl).contained hC faults w hb.2
    · obtain ⟨faults, hraises⟩ := (hf a rfl).raises hC
      exact ⟨faults, Raises.bind_right (hp faults).triple fun b w hb => hb.1 ▸ hraises w hb.2⟩
    · cases hb
      exact h
  | error e =>
    refine (of_yields fun faults => (hp faults).bind_error).congr
      ⟨fun h => ⟨h, fun b hb => ?_⟩, fun h => h.1⟩
    cases hb

/-- The same where the first program raises nothing. -/
theorem bind_ok {p : CoreM α} {a : α} {f : α → CoreM β} (hp : ∀ faults, Yields faults n p (.ok a))
    (hf : ContainedIff n (f a) C) : ContainedIff n (p >>= f) C := by
  refine (bind (C := fun _ => C) hp fun b hb => ?_).congr
    ⟨fun h => h.2 a rfl, fun h => ⟨trivial, fun _ _ => h⟩⟩
  cases hb
  exact hf

/-- A program that is run on a value that is computed first. -/
theorem ofExcept {x : Except Failure α} {f : α → CoreM β} {C : α → Prop}
    (hf : ∀ a, x = .ok a → ContainedIff n (f a) (C a)) :
    ContainedIff n (Quarks.ofExcept x >>= f) (RuntimeOnly x ∧ ∀ a, x = .ok a → C a) :=
  bind (fun _ => Yields.ofExcept x) hf

/-- The same where the value is computed without another exception than a runtime error. -/
theorem ofExcept_of_runtimeOnly {x : Except Failure α} {f : α → CoreM β} {C : α → Prop}
    (hx : RuntimeOnly x) (hf : ∀ a, x = .ok a → ContainedIff n (f a) (C a)) :
    ContainedIff n (Quarks.ofExcept x >>= f) (∀ a, x = .ok a → C a) :=
  (ofExcept hf).congr ⟨fun h => h.2, fun h => ⟨hx, h⟩⟩

/-- What is run on the result is always contained. -/
theorem andThen {p : CoreM α} {f : α → CoreM β} (h : ContainedIff n p C)
    (hf : ∀ a, Contained (fun _ => True) (f a) fun _ _ => True) : ContainedIff n (p >>= f) C := by
  constructor
  · exact fun hC => (h.contained hC).bind hf
  · intro hC
    obtain ⟨faults, hraises⟩ := h.raises hC
    exact ⟨faults, hraises.bind_left⟩

/-- What is made of the result raises no exception. -/
theorem map {p : CoreM α} {g : α → β} (h : ContainedIff n p C) :
    ContainedIff n (p >>= fun a => Pure.pure (g a)) C :=
  h.andThen fun _ => Contained.pure fun _ _ => trivial

/-- A barrier that answers a runtime error changes nothing. -/
theorem catchWhat {p : CoreM α} {g : Bytes → α} (h : ContainedIff n p C) :
    ContainedIff n (Quarks.catchWhat p g) C := by
  constructor
  · intro hC faults
    refine Prog.Triple.tryCatch (M := fun e _ => e.isRuntimeError = true)
      (h.contained hC faults) fun e w he => ?_
    cases e with
    | runtimeError what => trivial
    | _ => cases he
  · intro hC
    obtain ⟨faults, hraises⟩ := h.raises hC
    refine ⟨faults, Prog.Triple.tryCatch hraises fun e w he => ?_⟩
    cases e with
    | runtimeError what => cases he
    | _ => rfl

end ContainedIff

/-- Behind a barrier that answers runtime errors, a program that is settled by a condition
returns, whatever the calls of RocksDB answer, if and only if the condition holds. -/
theorem catchWhat_returns_iff {n : Node} {p : CoreM α} {g : Bytes → α} {C : Prop}
    (h : ContainedIff n p C) :
    (∀ faults w, w.node = n → ∃ a, answer faults w (catchWhat p g) = .ok a) ↔ C := by
  constructor
  · intro hreturns
    by_contra hC
    obtain ⟨faults, hraises⟩ := (h.catchWhat (g := g)).raises hC
    have hrun := hraises ⟨n, 0, fun _ => false⟩ rfl
    obtain ⟨a, ha⟩ := hreturns faults ⟨n, 0, fun _ => false⟩ rfl
    unfold answer at ha
    rcases hr : Prog.run (handle faults) (catchWhat p g) ⟨n, 0, fun _ => false⟩ with ⟨e | b, w'⟩
    · rw [hr] at ha
      cases ha
    · rw [hr] at hrun
      exact hrun
  · intro hC faults w hw
    have htriple : Prog.Triple (handle faults) (fun w => w.node = n) (catchWhat p g)
        (fun _ _ => True) fun _ _ => False := by
      refine Prog.Triple.tryCatch (h.contained hC faults) fun e w he => ?_
      cases e with
      | runtimeError what => trivial
      | _ => cases he
    have hrun := htriple w hw
    unfold answer
    rcases hr : Prog.run (handle faults) (catchWhat p g) w with ⟨e | b, w'⟩
    · rw [hr] at hrun
      exact hrun.elim
    · exact ⟨b, rfl⟩

end Quarks
