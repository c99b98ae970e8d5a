import Quarks.Interleaving
import Mathlib.Data.Fintype.Defs

/-!
# Requests that read a key and then write it

`put`, `post` and `incrementValue` read the value of a key, compute another one and
store it, in two operations and without a mutex. If no request reads the key while
another one is about to write it, the writes take effect one after the other, each on
what the one before it has stored.
-/

namespace Quarks

open Basis

variable {ι α : Type}

/-- The program first stores a value under the key, or it stores nothing; after that it only
passes on the change. -/
def WritesOrSkips (key : Bytes) (value : Option Bytes) (Stored Skipped : Except Failure α → Prop)
    (p : CoreM α) : Prop :=
  match value with
  | none => p.Ends Op.Announces Skipped
  | some value => ∃ next : Res (.put key value) → CoreM α,
      p = .call (.put key value) next ∧ (next true).Ends Op.Announces Stored

/-- The request reads the key, and from what it finds it computes the value that it stores
under the key, or nothing. -/
def ReadsThenWrites (key : Bytes) (update : Option Bytes → Option Bytes)
    (Stored : Option Bytes → Except Failure α → Prop) (Skipped : Except Failure α → Prop)
    (p : CoreM α) : Prop :=
  ∃ next, p = .call (.get key) next ∧
    ∀ found, WritesOrSkips key (update found) (Stored found) Skipped (next found)

section

variable [HashOrder] (c : Config)

/-- `commitPut` stores the value first. -/
theorem commitPut_writes (key value : Bytes) :
    ∃ next : Res (.put key value) → CoreM Bool,
      commitPut c key value = .call (.put key value) next ∧
      (next true).Ends Op.Announces (· = .ok true) :=
  ⟨_, rfl, (putRequest_ends c key value).bind (fun _ _ => rfl) fun e he => by cases he⟩

/-- `dump` stores its text first. -/
theorem dumpPair_writes (hdb : c.dbOk = true) (key value : Bytes) :
    ∃ next : Res (.put key value) → CoreM (Bool × Bytes),
      dumpPair c key value = .call (.put key value) next ∧
      (next true).Ends Op.Announces (· = .ok (true, ascii "\x7b\"result\":true\x7d")) := by
  obtain ⟨next, heq, hnext⟩ := commitPut_writes c key value
  unfold dumpPair
  rw [if_pos hdb, heq]
  refine ⟨_, rfl, hnext.bind (fun ok h => ?_) fun e he => by cases he⟩
  cases h
  exact rfl

end

/-- The first operation reads a key that the second one writes. -/
def Op.readsWritten : Op → Op → Bool
  | .get key, .put key' _ => key == key'
  | _, _ => false

/-- No request is about to write a key that this one is about to read. -/
def ReadsAlone (p : Requests ι α) (i : ι) : Prop :=
  ∀ j, ∀ op ∈ (p.progs i).next?, ∀ op' ∈ (p.progs j).next?, op.readsWritten op' = false

instance [Fintype ι] (p : Requests ι α) (i : ι) : Decidable (ReadsAlone p i) :=
  inferInstanceAs (Decidable (∀ j, ∀ op ∈ (p.progs i).next?, ∀ op' ∈ (p.progs j).next?,
    op.readsWritten op' = false))

/-- The value of a key after some requests have written it, one after the other. -/
def valueAfter (update : ι → Option Bytes → Option Bytes) (found : Option Bytes)
    (order : List ι) : Option Bytes :=
  order.foldl (fun found i => (update i found).or found) found

theorem valueAfter_append (update : ι → Option Bytes → Option Bytes) (found : Option Bytes)
    (order : List ι) (i : ι) : valueAfter update found (order ++ [i]) =
      (update i (valueAfter update found order)).or (valueAfter update found order) := by
  simp [valueAfter]

/-- The requests of a list have written the key, one after the other; the others have not. -/
structure Writes (key : Bytes) (update : ι → Option Bytes → Option Bytes)
    (found : Option Bytes) (db : Store) (order : List ι) : Prop where
  nodup : order.Nodup
  value : db.find? key = valueAfter update found order
  wrote : ∀ done i, done ++ [i] <+: order →
    (update i (valueAfter update found done)).isSome = true

section

variable (key : Bytes) (update : ι → Option Bytes → Option Bytes)
  (Stored : ι → Option Bytes → Except Failure α → Prop)
  (Skipped : ι → Except Failure α → Prop) (found : Option Bytes)

/-- Where a request stands: it has not started, it is about to write, or it does not touch
the database any more. -/
inductive Phase (prog₀ : CoreM α) (order : List ι) (i : ι) (prog : CoreM α) : Prop
  | waiting (hi : i ∉ order) (h : prog = prog₀)
  | writing (hi : i ∉ order) {value : Bytes} {next : Res (.put key value) → CoreM α}
      (h : prog = .call (.put key value) next)
      (hvalue : update i (valueAfter update found order) = some value)
      (hnext : (next true).Ends Op.Announces (Stored i (valueAfter update found order)))
  | stored {done : List ι} (hi : done ++ [i] <+: order)
      (h : prog.Ends Op.Announces (Stored i (valueAfter update found done)))
  | skipped (hi : i ∉ order) (h : prog.Ends Op.Announces (Skipped i))

/-- The state of the requests: some have written, and each is in one of the phases. -/
def InPhases (progs₀ : ι → CoreM α) (p : Requests ι α) : Prop :=
  ∃ order, Writes key update found p.state.1.node.db order ∧
    (∀ i, Phase key update Stored Skipped found (progs₀ i) order i (p.progs i)) ∧
    ∀ i j value value', (p.progs i).next? = some (.put key value) →
      (p.progs j).next? = some (.put key value') → i = j

end

section

variable {key : Bytes} {update : ι → Option Bytes → Option Bytes}
  {Stored : ι → Option Bytes → Except Failure α → Prop}
  {Skipped : ι → Except Failure α → Prop} {found : Option Bytes} {progs₀ : ι → CoreM α}

/-- Passing on a change does not touch the database. -/
theorem handle_announces_db {op : Op} (h : op.Announces) (faults : Faults) (w : World) :
    (handle faults op w).2.node.db = w.node.db := by
  cases op with
  | putCached key value | publish record | http call | lock m | unlock m => rfl
  | _ => exact h.elim

/-- A request that has been started does not write, unless it is about to. -/
theorem not_writes_of_ends {P : Except Failure α → Prop} {prog : CoreM α}
    (h : prog.Ends Op.Announces P) (key value : Bytes) :
    prog.next? ≠ some (.put key value) := fun hnext => h.of_next? hnext

/-- One operation keeps the requests in their phases, if no request reads the key while
another one is about to write it. -/
theorem performed_inPhases [DecidableEq ι]
    (hprogs : ∀ i, ReadsThenWrites key (update i) (Stored i) (Skipped i) (progs₀ i))
    {p : Requests ι α} {i : ι} {op : Op} {next : Res op → CoreM α}
    (hp : InPhases key update Stored Skipped found progs₀ p) (halone : ReadsAlone p i)
    (hprog : p.progs i = .call op next) :
    InPhases key update Stored Skipped found progs₀ (performed noFaults p i op next) := by
  obtain ⟨order, ⟨hnodup, hvalue, hwrote⟩, hphase, hone⟩ := hp
  have hothers : ∀ q j, j ≠ i → Function.update p.progs i q j = p.progs j :=
    fun q j hj => Function.update_of_ne hj _ _
  -- a program that is not about to write is not in the way of the one that is
  have hone' : ∀ q : CoreM α, (∀ value, q.next? ≠ some (.put key value)) →
      ∀ j k value value', (Function.update p.progs i q j).next? = some (.put key value) →
        (Function.update p.progs i q k).next? = some (.put key value') → j = k := by
    intro q hq j k value value' hj hk
    have hne : ∀ {l value}, (Function.update p.progs i q l).next? = some (.put key value) →
        l ≠ i := by
      rintro l value hl rfl
      exact hq value (by simpa using hl)
    rw [hothers q j (hne hj)] at hj
    rw [hothers q k (hne hk)] at hk
    exact hone j k value value' hj hk
  cases hphase i with
  | waiting hi h =>
    obtain ⟨next', heq, hnext⟩ := hprogs i
    rw [← h, hprog] at heq
    cases heq
    have hfound : (handle noFaults (.get key) p.state.1).1 = valueAfter update found order := hvalue
    have hnext := hnext (valueAfter update found order)
    have hkeep : ∀ j, j ≠ i → Phase key update Stored Skipped found (progs₀ j) order j
        ((performed noFaults p i (.get key) next').progs j) :=
      fun j hj => (performed_progs_of_ne noFaults p hj _ next').symm ▸ hphase j
    cases hupdate : update i (valueAfter update found order) with
    | none =>
      simp only [WritesOrSkips, hupdate] at hnext
      refine ⟨order, ⟨hnodup, hvalue, hwrote⟩, fun j => ?_, hone' _ fun value => ?_⟩
      · by_cases hj : j = i
        · subst hj
          refine .skipped hi ?_
          rw [performed_progs_self, hfound]
          exact hnext
        · exact hkeep j hj
      · exact hfound ▸ not_writes_of_ends hnext key value
    | some value =>
      simp only [WritesOrSkips, hupdate] at hnext
      obtain ⟨next'', heq, hstored⟩ := hnext
      refine ⟨order, ⟨hnodup, hvalue, hwrote⟩, fun j => ?_, ?_⟩
      · by_cases hj : j = i
        · subst hj
          refine .writing hi ?_ hupdate hstored
          rw [performed_progs_self, hfound]
          exact heq
        · exact hkeep j hj
      · -- nobody else is about to write
        have hnobody : ∀ j value, (p.progs j).next? ≠ some (.put key value) := by
          intro j value hj
          have hread := halone j (.get key) (by rw [hprog]; rfl) _ hj
          simp [Op.readsWritten] at hread
        have honly : ∀ j value, (Function.update p.progs i
            (next' (handle noFaults (.get key) p.state.1).1) j).next? = some (.put key value) →
            j = i := by
          intro j value hj
          by_contra hne
          rw [hothers _ j hne] at hj
          exact hnobody j value hj
        intro j k value value' hj hk
        rw [honly j value hj, honly k value' hk]
  | writing hi h hvalue' hnext =>
    rename_i value next'
    rw [hprog] at h
    cases h
    refine ⟨order ++ [i], ⟨?_, ?_, ?_⟩, fun j => ?_, hone' _ (not_writes_of_ends hnext key)⟩
    · rw [← List.concat_eq_append]
      exact List.Nodup.concat hi hnodup
    · rw [valueAfter_append, hvalue']
      exact OrderedMap.find?_insert_self _ _ _
    · intro done j hdone
      rcases List.prefix_concat_iff.mp hdone with heq | hdone
      · obtain ⟨rfl, hlast⟩ := List.append_inj' heq rfl
        cases hlast
        simp [hvalue']
      · exact hwrote done j hdone
    · by_cases hj : j = i
      · subst hj
        refine .stored (List.prefix_refl _) ?_
        rw [performed_progs_self]
        exact hnext
      · have hmem : j ∉ order → j ∉ order ++ [i] := by simp [hj]
        rw [performed_progs_of_ne noFaults p hj]
        cases hphase j with
        | waiting hj' h => exact .waiting (hmem hj') h
        | writing hj' h _ _ =>
          exact absurd (hone j i _ _ (by rw [h]; rfl) (by rw [hprog]; rfl)) hj
        | stored hj' h => exact .stored (hj'.trans (List.prefix_append _ _)) h
        | skipped hj' h => exact .skipped (hmem hj') h
  | stored hi h =>
    rw [hprog] at h
    refine ⟨order, ⟨hnodup, (handle_announces_db h.1 noFaults _).symm ▸ hvalue, hwrote⟩,
      fun j => ?_, hone' _ (not_writes_of_ends (h.2 _) key)⟩
    by_cases hj : j = i
    · subst hj
      exact .stored hi (by rw [performed_progs_self]; exact h.2 _)
    · rw [performed_progs_of_ne noFaults p hj]
      exact hphase j
  | skipped hi h =>
    rw [hprog] at h
    refine ⟨order, ⟨hnodup, (handle_announces_db h.1 noFaults _).symm ▸ hvalue, hwrote⟩,
      fun j => ?_, hone' _ (not_writes_of_ends (h.2 _) key)⟩
    by_cases hj : j = i
    · subst hj
      exact .skipped hi (by rw [performed_progs_self]; exact h.2 _)
    · rw [performed_progs_of_ne noFaults p hj]
      exact hphase j

/-- In whatever state a schedule of such turns is interrupted, some requests have written
the key, one after the other, and those that have ended have done so accordingly. -/
theorem interleave_writes [DecidableEq ι]
    (hprogs : ∀ i, ReadsThenWrites key (update i) (Stored i) (Skipped i) (progs₀ i))
    {w : World} {schedule : List ι}
    (halone : EachTurnMeets noFaults ReadsAlone (arrived w progs₀) schedule) {done : List ι}
    (hdone : done <+: schedule) :
    ∃ order, Writes key update (w.node.db.find? key)
        (interleave noFaults (arrived w progs₀) done).state.1.node.db order ∧
      ∀ i r, ((interleave noFaults (arrived w progs₀) done).progs i).outcome = some r →
        (∃ before, before ++ [i] <+: order ∧
          Stored i (valueAfter update (w.node.db.find? key) before) r) ∨
        i ∉ order ∧ Skipped i r := by
  have hstart : InPhases key update Stored Skipped (w.node.db.find? key) progs₀
      (arrived w progs₀) := by
    refine ⟨[], ⟨List.nodup_nil, rfl, fun done i h => ?_⟩,
      fun i => .waiting List.not_mem_nil rfl, fun i j value value' hi => ?_⟩
    · have hnil := List.prefix_nil.mp h
      simp at hnil
    · obtain ⟨next, heq, -⟩ := hprogs i
      rw [show (arrived w progs₀).progs i = progs₀ i from rfl, heq] at hi
      cases hi
  obtain ⟨order, hwrites, hphase, -⟩ := interleave_of_eachTurn
    (fun p i op next hp halone hprog => performed_inPhases hprogs hp halone hprog) hstart halone
      hdone
  refine ⟨order, hwrites, fun i r hr => ?_⟩
  cases hphase i with
  | waiting hi h =>
    obtain ⟨next, heq, -⟩ := hprogs i
    rw [h, heq] at hr
    cases hr
  | writing hi h _ _ =>
    rw [h] at hr
    cases hr
  | stored hi h => exact Or.inl ⟨_, hi, h.of_outcome hr⟩
  | skipped hi h => exact Or.inr ⟨hi, h.of_outcome hr⟩

end

end Quarks
