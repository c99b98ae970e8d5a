import Quarks.Basis.Program
import Mathlib.Data.List.Nodup

/-!
# Pools of programs

Programs run side by side on one state. At each turn one of them performs its next
operation, if that is enabled. A schedule is any finite list of turns, so that every
interleaving of the operations is the run of some schedule. The handler may depend on
the program whose turn it is: in this way it can write down who did what.
-/

namespace Basis

namespace Prog

variable {Op : Type} {Res : Op → Type} {ε σ α β : Type}

/-- The next operation of a program that has not ended. -/
def next? : Prog Res ε α → Option Op
  | .call op _ => some op
  | _ => none

/-- The result or the exception of a program that has ended. -/
def outcome : Prog Res ε α → Option (Except ε α)
  | .pure a => some (.ok a)
  | .throw e => some (.error e)
  | .call _ _ => none

/-- Whatever the answers are, the program performs only operations of one kind and ends
with an outcome of one kind. -/
def Ends (S : Op → Prop) (P : Except ε α → Prop) : Prog Res ε α → Prop
  | .pure a => P (.ok a)
  | .throw e => P (.error e)
  | .call op next => S op ∧ ∀ r, (next r).Ends S P

namespace Ends

variable {S : Op → Prop} {P : Except ε α → Prop} {Q : Except ε β → Prop}

theorem pure {a : α} (h : P (.ok a)) : Ends S P (Pure.pure a : Prog Res ε α) := h

theorem throw {e : ε} (h : P (.error e)) :
    Ends S P (MonadExcept.throw e : Prog Res ε α) := h

theorem lift {op : Op} {P : Except ε (Res op) → Prop} (hop : S op) (h : ∀ r, P (.ok r)) :
    Ends S P (Prog.lift op : Prog Res ε (Res op)) := ⟨hop, h⟩

/-- The second program starts with the results of the first one. -/
theorem bind {p : Prog Res ε α} {f : α → Prog Res ε β} (hp : Ends S P p)
    (hf : ∀ a, P (.ok a) → Ends S Q (f a)) (he : ∀ e, P (.error e) → Q (.error e)) :
    Ends S Q (p >>= f) := by
  change Ends S Q (p.bind f)
  induction p with
  | pure a => exact hf a hp
  | throw e => exact he e hp
  | call op next ih => exact ⟨hp.1, fun r => ih r (hp.2 r)⟩

/-- The handler starts with the exceptions of the program. -/
theorem tryCatch {P' : Except ε α → Prop} {p : Prog Res ε α} {f : ε → Prog Res ε α}
    (hp : Ends S P p) (hok : ∀ a, P (.ok a) → P' (.ok a))
    (hf : ∀ e, P (.error e) → Ends S P' (f e)) :
    Ends S P' (MonadExcept.tryCatch p f) := by
  change Ends S P' (p.tryCatch f)
  induction p with
  | pure a => exact hok a hp
  | throw e => exact hf e hp
  | call op next ih => exact ⟨hp.1, fun r => ih r (hp.2 r)⟩

theorem mono {S' : Op → Prop} {P' : Except ε α → Prop} {p : Prog Res ε α} (hp : Ends S P p)
    (hS : ∀ op, S op → S' op) (hP : ∀ r, P r → P' r) : Ends S' P' p := by
  induction p with
  | pure a => exact hP _ hp
  | throw e => exact hP _ hp
  | call op next ih => exact ⟨hS op hp.1, fun r => ih r (hp.2 r)⟩

/-- The outcome of a program that has ended is of that kind. -/
theorem of_outcome {p : Prog Res ε α} {r : Except ε α} (hp : Ends S P p)
    (h : p.outcome = some r) : P r := by
  cases p with
  | pure a => exact Option.some.inj h ▸ hp
  | throw e => exact Option.some.inj h ▸ hp
  | call op next => cases h

/-- The next operation of the program is of that kind. -/
theorem of_next? {p : Prog Res ε α} {op : Op} (hp : Ends S P p) (h : p.next? = some op) :
    S op := by
  cases p with
  | call op' next => exact Option.some.inj h ▸ hp.1
  | _ => cases h

/-- A condition on the operations of a run, together with what is known of all operations. -/
theorem eachOp {h : Handler Res σ} {C : σ → Op → Prop} {p : Prog Res ε α} {s : σ}
    (hp : Ends S P p) (hC : p.EachOp h C s) : p.EachOp h (fun s op => C s op ∧ S op) s := by
  induction p generalizing s with
  | pure a => trivial
  | throw e => trivial
  | call op next ih => exact ⟨⟨hC.1, hp.1⟩, ih _ (hp.2 _) hC.2⟩

end Ends

/-- The operations that a program performs when it is run alone, with their answers. -/
def trace (h : Handler Res σ) : Prog Res ε α → σ → List ((op : Op) × Res op)
  | .call op next, s => ⟨op, (h op s).1⟩ :: (next (h op s).1).trace h (h op s).2
  | _, _ => []

theorem trace_bind (h : Handler Res σ) (p : Prog Res ε α) (f : α → Prog Res ε β) (s : σ) :
    trace h (p >>= f) s = trace h p s ++ match run h p s with
      | (.ok a, s') => trace h (f a) s'
      | (.error _, _) => [] := by
  change trace h (p.bind f) s = _
  induction p generalizing s with
  | pure a => rfl
  | throw e => rfl
  | call op next ih =>
    simp only [Prog.bind, trace, run, List.cons_append]
    rw [ih]

theorem trace_tryCatch (h : Handler Res σ) (p : Prog Res ε α) (f : ε → Prog Res ε α) (s : σ) :
    trace h (MonadExcept.tryCatch p f) s = trace h p s ++ match run h p s with
      | (.ok _, _) => []
      | (.error e, s') => trace h (f e) s' := by
  change trace h (p.tryCatch f) s = _
  induction p generalizing s with
  | pure a => rfl
  | throw e => rfl
  | call op next ih =>
    simp only [Prog.tryCatch, trace, run, List.cons_append]
    rw [ih]

/-- Only operations of the given kind are performed. -/
theorem Ends.of_mem_trace {S : Op → Prop} {P : Except ε α → Prop} {p : Prog Res ε α}
    (hp : p.Ends S P) (h : Handler Res σ) {s : σ} {e : (op : Op) × Res op}
    (he : e ∈ p.trace h s) : S e.1 := by
  induction p generalizing s with
  | call op next ih =>
    rcases List.mem_cons.mp he with rfl | he
    · exact hp.1
    · exact ih _ (hp.2 _) he
  | _ => cases he

/-- The handler that also writes down the operations, with a label and their answers. -/
def Handler.recorded {ι : Type} (h : Handler Res σ) (i : ι) :
    Handler Res (σ × List (ι × ((op : Op) × Res op))) :=
  fun op s => ((h op s.1).1, ((h op s.1).2, s.2 ++ [(i, ⟨op, (h op s.1).1⟩)]))

/-- Writing down the operations does not change the run. -/
theorem run_recorded {ι : Type} (h : Handler Res σ) (i : ι) (p : Prog Res ε α)
    (s : σ × List (ι × ((op : Op) × Res op))) :
    run (h.recorded i) p s = ((run h p s.1).1,
      ((run h p s.1).2, s.2 ++ (trace h p s.1).map fun e => (i, e))) := by
  induction p generalizing s with
  | pure a => simp [run, trace]
  | throw e => simp [run, trace]
  | call op next ih => simp [run, trace, Handler.recorded, ih]

/-- A program that is run alone from the first state leaves the rest of it in the second. -/
inductive Leads (h : Handler Res σ) (p₀ : Prog Res ε α) (s₀ : σ) : Prog Res ε α → σ → Prop
  | refl : Leads h p₀ s₀ p₀ s₀
  | step {op : Op} {next : Res op → Prog Res ε α} {s : σ} : Leads h p₀ s₀ (.call op next) s →
      Leads h p₀ s₀ (next (h op s).1) (h op s).2

/-- The rest of a program ends as the program does. -/
theorem Leads.run_eq {h : Handler Res σ} {p₀ p : Prog Res ε α} {s₀ s : σ}
    (hp : Leads h p₀ s₀ p s) : p.run h s = p₀.run h s₀ := by
  induction hp with
  | refl => rfl
  | step _ ih => exact ih

/-- What has been written down stays. -/
theorem Leads.log_prefix {ι : Type} {h : Handler Res σ} {i : ι} {p₀ p : Prog Res ε α}
    {s₀ s : σ × List (ι × ((op : Op) × Res op))} (hp : Leads (h.recorded i) p₀ s₀ p s) :
    s₀.2 <+: s.2 := by
  induction hp with
  | refl => exact List.prefix_refl _
  | step _ ih => exact ih.trans (List.prefix_append _ _)

end Prog

/-- Programs that run side by side on one state. -/
structure Pool {Op : Type} (Res : Op → Type) (ι σ ε α : Type) where
  state : σ
  progs : ι → Prog Res ε α

namespace Pool

variable {Op : Type} {Res : Op → Type} {ι σ ε α : Type} [DecidableEq ι]
  (h : ι → Prog.Handler Res σ) (enabled : Op → σ → Bool)

/-- A turn of one program: it performs its next operation, if it has not ended and the
operation is enabled. -/
def step (p : Pool Res ι σ ε α) (i : ι) : Pool Res ι σ ε α :=
  match p.progs i with
  | .call op next =>
    if enabled op p.state then
      ⟨(h i op p.state).2, Function.update p.progs i (next (h i op p.state).1)⟩
    else p
  | _ => p

/-- The pool after the turns of a schedule. -/
def run (p : Pool Res ι σ ε α) (schedule : List ι) : Pool Res ι σ ε α :=
  schedule.foldl (step h enabled) p

/-- Each turn of a schedule meets a condition on the pool that it finds. -/
def EachTurn (C : Pool Res ι σ ε α → ι → Prop) : Pool Res ι σ ε α → List ι → Prop
  | _, [] => True
  | p, i :: is => C p i ∧ EachTurn C (step h enabled p i) is

instance EachTurn.decidable {C : Pool Res ι σ ε α → ι → Prop} [∀ p i, Decidable (C p i)] :
    (p : Pool Res ι σ ε α) → (schedule : List ι) → Decidable (EachTurn h enabled C p schedule)
  | _, [] => isTrue trivial
  | p, i :: is =>
    have : Decidable (EachTurn h enabled C (step h enabled p i) is) := EachTurn.decidable _ is
    inferInstanceAs (Decidable (C p i ∧ EachTurn h enabled C (step h enabled p i) is))

variable {h enabled}

/-- What every operation preserves, if its turn meets the condition, holds in every pool
that a schedule of such turns reaches. -/
theorem run_of_eachTurn {I : Pool Res ι σ ε α → Prop} {C : Pool Res ι σ ε α → ι → Prop}
    (hstep : ∀ p i op next, I p → C p i → p.progs i = .call op next →
      enabled op p.state = true →
      I ⟨(h i op p.state).2, Function.update p.progs i (next (h i op p.state).1)⟩)
    {p : Pool Res ι σ ε α} (hp : I p) {schedule : List ι}
    (hturns : EachTurn h enabled C p schedule) {done : List ι} (hdone : done <+: schedule) :
    I (run h enabled p done) := by
  induction done generalizing p schedule with
  | nil => exact hp
  | cons i done ih =>
    obtain ⟨rest, rfl⟩ := hdone
    refine ih ?_ hturns.2 ⟨rest, rfl⟩
    unfold step
    cases hprog : p.progs i with
    | call op next =>
      simp only
      split
      · next hen => exact hstep p i op next hp hturns.1 hprog hen
      · exact hp
    | _ => exact hp

/-- Without a condition: what every operation preserves holds in every reachable pool. -/
theorem run_induction {I : Pool Res ι σ ε α → Prop}
    (hstep : ∀ p i op next, I p → p.progs i = .call op next → enabled op p.state = true →
      I ⟨(h i op p.state).2, Function.update p.progs i (next (h i op p.state).1)⟩)
    {p : Pool Res ι σ ε α} (hp : I p) (schedule : List ι) : I (run h enabled p schedule) := by
  have hturns : ∀ p : Pool Res ι σ ε α, EachTurn h enabled (fun _ _ => True) p schedule := by
    induction schedule with
    | nil => exact fun _ => trivial
    | cons i schedule ih => exact fun p => ⟨trivial, ih _⟩
  exact run_of_eachTurn (fun p i op next hp _ => hstep p i op next hp) hp (hturns p)
    (List.prefix_refl _)

/-! ## Mutual exclusion -/

/-- The operations that enter and leave a section in which there is one program at most. -/
structure Guards (h : ι → Prog.Handler Res σ) (enabled : Op → σ → Bool) (acquire release : Op)
    (held : σ → Prop) : Prop where
  free : ∀ {s}, enabled acquire s = true → ¬held s
  acquired : ∀ i s, held (h i acquire s).2
  released : ∀ i s, ¬held (h i release s).2
  kept : ∀ i s {op}, op ≠ acquire → op ≠ release → held s → held (h i op s).2

/-- A program inside the section leaves it with its last operation. -/
def Inside (acquire release : Op) : Prog Res ε α → Prop
  | .call op next => op = release ∧ (∀ r, (next r).outcome.isSome = true) ∨
      op ≠ acquire ∧ op ≠ release ∧ ∀ r, Inside acquire release (next r)
  | _ => False

/-- The program enters the section with its first operation and leaves it with its last. -/
def Guarded (acquire release : Op) (p : Prog Res ε α) : Prop :=
  ∃ next, p = .call acquire next ∧ ∀ r, Inside acquire release (next r)

/-- The state after some programs have been run, one after the other. -/
def serial (h : ι → Prog.Handler Res σ) (progs : ι → Prog Res ε α) (s : σ) (order : List ι) : σ :=
  order.foldl (fun s i => ((progs i).run (h i) s).2) s

omit [DecidableEq ι] in
theorem serial_append (progs : ι → Prog Res ε α) (s : σ) (order : List ι) (i : ι) :
    serial h progs s (order ++ [i]) = ((progs i).run (h i) (serial h progs s order)).2 := by
  simp [serial]

/-- The programs of a list have been run, one after the other, and at most one further
program has been started. -/
structure Serialised (h : ι → Prog.Handler Res σ) (acquire release : Op) (held : σ → Prop)
    (p₀ p : Pool Res ι σ ε α) (order : List ι) : Prop where
  nodup : order.Nodup
  ended : ∀ i ∈ order, (p.progs i).outcome.isSome = true
  current : (¬held p.state ∧ p.state = serial h p₀.progs p₀.state order ∧
      ∀ i ∉ order, p.progs i = p₀.progs i) ∨
    ∃ i ∉ order, held p.state ∧ Inside acquire release (p.progs i) ∧
      Prog.Leads (h i) (p₀.progs i) (serial h p₀.progs p₀.state order) (p.progs i) p.state ∧
      ∀ j ∉ order, j ≠ i → p.progs j = p₀.progs j

omit [DecidableEq ι] in
private theorem run_of_outcome {p : Prog Res ε α} (hp : p.outcome.isSome = true) (i : ι) (s : σ) :
    (p.run (h i) s).2 = s := by
  cases p with
  | call op next => cases hp
  | _ => rfl

/-- Programs that are guarded by the same section are serialised: whatever the schedule,
the state is that of running them one after the other, in some order. -/
theorem exists_serialised {acquire release : Op} {held : σ → Prop}
    (hguards : Guards h enabled acquire release held) {p₀ : Pool Res ι σ ε α}
    (hprogs : ∀ i, Guarded acquire release (p₀.progs i)) (hfree : ¬held p₀.state)
    (schedule : List ι) :
    ∃ order, Serialised h acquire release held p₀ (run h enabled p₀ schedule) order := by
  refine run_induction (I := fun p => ∃ order, Serialised h acquire release held p₀ p order) ?_
    ⟨[], List.nodup_nil, by simp, Or.inl ⟨hfree, rfl, fun _ _ => rfl⟩⟩ schedule
  rintro p j op next ⟨order, hnodup, hended, hcurrent⟩ hprog hen
  have hj : j ∉ order := fun hmem => by
    have hsome := hended j hmem
    rw [hprog] at hsome
    cases hsome
  have hended' : ∀ q, ∀ i ∈ order, (Function.update p.progs j q i).outcome.isSome = true := by
    intro q i hi
    have hij : i ≠ j := by
      rintro rfl
      exact hj hi
    rw [Function.update_of_ne hij]
    exact hended i hi
  rcases hcurrent with ⟨hheld, hstate, hrest⟩ | ⟨i, hi, hheld, hinside, hleads, hrest⟩
  · -- nobody is inside: the program enters
    obtain ⟨next', heq, hinside⟩ := hprogs j
    rw [← hrest j hj, hprog] at heq
    cases heq
    refine ⟨order, hnodup, hended' _, Or.inr ⟨j, hj, hguards.acquired j _, ?_, ?_, ?_⟩⟩
    · simpa using hinside _
    · have hstart : Prog.Leads (h j) (p₀.progs j) (serial h p₀.progs p₀.state order)
          (.call acquire next') p.state := by
        rw [← hstate, ← hprog, hrest j hj]
        exact .refl
      simpa using hstart.step
    · intro k hk hkj
      simp [Function.update_of_ne hkj, hrest k hk]
  · by_cases hji : j = i
    · subst hji
      rw [hprog] at hinside hleads
      rcases hinside with ⟨rfl, hlast⟩ | ⟨hacquire, hrelease, hinside⟩
      · -- the program leaves
        refine ⟨order ++ [j], ?_, ?_, Or.inl ⟨hguards.released j _, ?_, ?_⟩⟩
        · rw [← List.concat_eq_append]
          exact List.Nodup.concat hj hnodup
        · intro k hk
          rcases List.mem_append.mp hk with hk | hk
          · exact hended' _ k hk
          · rw [List.mem_singleton.mp hk]
            simpa using hlast _
        · rw [serial_append, ← hleads.run_eq]
          exact (run_of_outcome (hlast _) j _).symm
        · intro k hk
          have hkj : k ≠ j := fun hkj => hk (by simp [hkj])
          have hkorder : k ∉ order := fun hmem => hk (by simp [hmem])
          simp [Function.update_of_ne hkj, hrest k hkorder hkj]
      · refine ⟨order, hnodup, hended' _, Or.inr ⟨j, hj, ?_, ?_, ?_, ?_⟩⟩
        · exact hguards.kept j _ hacquire hrelease hheld
        · simpa using hinside _
        · simpa using hleads.step
        · intro k hk hkj
          simp [Function.update_of_ne hkj, hrest k hk hkj]
    · -- nobody else can enter
      obtain ⟨next', heq, -⟩ := hprogs j
      rw [← hrest j hj hji, hprog] at heq
      cases heq
      exact absurd hheld (hguards.free hen)

end Pool

end Basis
