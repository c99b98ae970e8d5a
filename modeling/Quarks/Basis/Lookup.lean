import Mathlib.Data.List.Nodup

/-!
# Lists of entries under keys

An entry is found under its key if no key is repeated, whatever the order of the
entries is.
-/

namespace Basis

variable {κ α β : Type} [BEq κ] [LawfulBEq κ] {l l' : List (κ × α)} {k : κ} {value : α}

theorem lookup_cons_eq [DecidableEq κ] (e : κ × α) (l : List (κ × α)) (k : κ) :
    (e :: l).lookup k = if k = e.1 then some e.2 else l.lookup k := by
  rw [List.lookup_cons]
  by_cases h : k = e.1
  · simp [h]
  · simp [h, beq_eq_false_iff_ne.mpr h]

/-- Without a repeated key, an entry is found under its key. -/
theorem lookup_eq_some_iff_mem (h : (l.map Prod.fst).Nodup) :
    l.lookup k = some value ↔ (k, value) ∈ l := by
  classical
  induction l with
  | nil => simp
  | cons e l ih =>
    obtain ⟨k', v⟩ := e
    obtain ⟨hk, hl⟩ := List.nodup_cons.mp h
    rw [lookup_cons_eq]
    by_cases hkey : k = k'
    · subst hkey
      have hnot : (k, value) ∉ l := fun hmem => hk (List.mem_map.mpr ⟨_, hmem, rfl⟩)
      simp [hnot, eq_comm]
    · simp [hkey, ih hl]

/-- The order of the entries does not matter if no key is repeated. -/
theorem lookup_perm (hperm : l.Perm l') (h : (l.map Prod.fst).Nodup) (k : κ) :
    l.lookup k = l'.lookup k := by
  have h' : (l'.map Prod.fst).Nodup := (hperm.map Prod.fst).nodup_iff.mp h
  refine Option.ext fun value => ?_
  rw [lookup_eq_some_iff_mem h, lookup_eq_some_iff_mem h', hperm.mem_iff]

omit [BEq κ] [LawfulBEq κ] in
/-- In a table of conditions whose names are not repeated, a name has one condition. -/
theorem forall_entry_iff {table : List (κ × Prop)} {C : Prop} (hnodup : (table.map Prod.fst).Nodup)
    (h : (k, C) ∈ table) : (∀ e ∈ table, e.1 = k → e.2) ↔ C := by
  constructor
  · exact fun hall => hall _ h rfl
  · rintro hC ⟨k', C'⟩ hmem rfl
    have heq := List.inj_on_of_nodup_map hnodup h hmem rfl
    cases heq
    exact hC

theorem lookup_map (f : α → β) (l : List (κ × α)) (k : κ) :
    (l.map (Prod.map id f)).lookup k = (l.lookup k).map f := by
  classical
  induction l with
  | nil => rfl
  | cons e l ih =>
    rw [List.map_cons, lookup_cons_eq, lookup_cons_eq, ih]
    simp only [Prod.map_fst, Prod.map_snd, id_eq]
    split <;> rfl

theorem isSome_lookup : (l.lookup k).isSome = true ↔ k ∈ l.map Prod.fst := by
  classical
  induction l with
  | nil => simp
  | cons e l ih =>
    rw [lookup_cons_eq, List.map_cons, List.mem_cons, ← ih]
    by_cases h : k = e.1 <;> simp [h]

/-- Where only one key counts, only the entry under that key does. -/
theorem flatMap_eq_lookup (h : (l.map Prod.fst).Nodup) {f : κ × α → List β}
    (hf : ∀ e ∈ l, e.1 ≠ k → f e = []) :
    l.flatMap f = ((l.lookup k).map fun a => f (k, a)).getD [] := by
  classical
  induction l with
  | nil => rfl
  | cons e l ih =>
    obtain ⟨k', a⟩ := e
    obtain ⟨hk, hl⟩ := List.nodup_cons.mp h
    have hrest := ih hl fun e he => hf e (List.mem_cons_of_mem _ he)
    rw [List.flatMap_cons, hrest, lookup_cons_eq]
    by_cases hkey : k = k'
    · subst hkey
      have hnone : l.lookup k = none := by
        rw [← Option.not_isSome_iff_eq_none, isSome_lookup]
        exact hk
      simp [hnone]
    · rw [hf _ List.mem_cons_self (Ne.symm hkey), if_neg hkey, List.nil_append]

end Basis
