import Quarks.Basis.OrderedMap

/-!
# Ranges of keys with a common prefix

Where keys are strings in lexicographic order, those with a given prefix lie next
to each other: from the prefix itself on, and before the prefix with its last
letter replaced by the next one, if there is a next one.
-/

namespace Basis

section Lex

variable {α : Type*} [LinearOrder α]

theorem nil_le_list (k : List α) : [] ≤ k := not_lt.mp (List.not_lt_nil k)

/-- The order of two nonempty strings. -/
theorem cons_le_cons_iff {a b : α} {k l : List α} :
    a :: k ≤ b :: l ↔ a < b ∨ a = b ∧ k ≤ l := by
  rw [← not_lt, List.cons_lt_cons_iff, ← not_lt (a := l)]
  constructor
  · intro h
    rcases lt_trichotomy a b with hab | rfl | hba
    · exact Or.inl hab
    · exact Or.inr ⟨rfl, fun hlt => h (Or.inr ⟨rfl, hlt⟩)⟩
    · exact absurd (Or.inl hba) h
  · rintro (hab | ⟨rfl, hle⟩) (hba | ⟨heq, hlt⟩)
    · exact absurd hab hba.asymm
    · exact absurd hab (heq ▸ lt_irrefl _)
    · exact absurd hba (lt_irrefl _)
    · exact hle hlt

/-- A string is not smaller than its prefixes. -/
theorem prefix_le {p k : List α} (h : p <+: k) : p ≤ k := by
  induction p generalizing k with
  | nil => exact nil_le_list k
  | cons a p ih =>
    obtain ⟨t, rfl⟩ := h
    exact cons_le_cons_iff.mpr (Or.inr ⟨rfl, ih ⟨t, rfl⟩⟩)

/-- What lies between a prefix and a string that has it has the prefix too. -/
theorem prefix_of_le_of_le {p k l : List α} (hl : p <+: l) (hpk : p ≤ k) (hkl : k ≤ l) :
    p <+: k := by
  induction p generalizing k l with
  | nil => exact List.nil_prefix
  | cons a p ih =>
    obtain ⟨t, rfl⟩ := hl
    cases k with
    | nil => exact absurd hpk (not_le.mpr (List.nil_lt_cons a p))
    | cons b k =>
      rcases cons_le_cons_iff.mp hpk with hab | ⟨rfl, hle⟩
      · rcases cons_le_cons_iff.mp hkl with hba | ⟨rfl, -⟩
        · exact absurd hab hba.asymm
        · exact absurd hab (lt_irrefl _)
      · rcases cons_le_cons_iff.mp hkl with hba | ⟨-, hkl⟩
        · exact absurd hba (lt_irrefl _)
        · exact List.cons_prefix_cons.mpr ⟨rfl, ih ⟨t, rfl⟩ hle hkl⟩

/-- Up to the next prefix, exactly the strings with the prefix are met. -/
theorem prefix_iff_of_covBy {q k : List α} {a b : α} (h : a ⋖ b) :
    q ++ [a] <+: k ↔ q ++ [a] ≤ k ∧ k < q ++ [b] := by
  induction q generalizing k with
  | nil =>
    cases k with
    | nil => simp
    | cons c k =>
      simp only [List.nil_append, List.cons_prefix_cons, List.nil_prefix, and_true,
        cons_le_cons_iff, nil_le_list, List.cons_lt_cons_iff, List.not_lt_nil, and_false,
        or_false]
      constructor
      · rintro rfl
        exact ⟨Or.inr rfl, h.1⟩
      · rintro ⟨hac | rfl, hcb⟩
        · exact absurd hcb (h.2 hac)
        · rfl
  | cons d q ih =>
    cases k with
    | nil => simp
    | cons c k =>
      simp only [List.cons_append, List.cons_prefix_cons, cons_le_cons_iff,
        List.cons_lt_cons_iff, ih]
      constructor
      · rintro ⟨rfl, hle, hlt⟩
        exact ⟨Or.inr ⟨rfl, hle⟩, Or.inr ⟨rfl, hlt⟩⟩
      · rintro ⟨hdc | ⟨rfl, hle⟩, hcd | ⟨heq, hlt⟩⟩
        · exact absurd hdc hcd.asymm
        · exact absurd hdc (heq ▸ lt_irrefl _)
        · exact absurd hcd (lt_irrefl _)
        · exact ⟨rfl, hle, hlt⟩

/-- Changing the last letter to a smaller one gives a smaller string. -/
theorem append_singleton_lt {q : List α} {a b : α} (h : b < a) : q ++ [b] < q ++ [a] := by
  induction q with
  | nil => exact List.cons_lt_cons_iff.mpr (Or.inl h)
  | cons c q ih => exact List.cons_lt_cons_iff.mpr (Or.inr ⟨rfl, ih⟩)

end Lex

namespace OrderedMap

variable {α β : Type*} [LinearOrder α] (m : OrderedMap (List α) β)

/-- The entries whose key has a prefix. -/
def withPrefix (p : List α) : List (List α × β) := m.entries.filter fun e => p.isPrefixOf e.1

@[simp] theorem mem_withPrefix {p : List α} {e : List α × β} :
    e ∈ m.withPrefix p ↔ e ∈ m.entries ∧ p <+: e.1 := by
  simp [withPrefix]

/-- From the prefix on, the keys that have it come first. -/
theorem takeWhile_above (p : List α) :
    (m.above p).takeWhile (fun e => p.isPrefixOf e.1) = m.withPrefix p := by
  have hall : m.withPrefix p = (m.above p).filter fun e => p.isPrefixOf e.1 := by
    rw [above_eq_filter, List.filter_filter, withPrefix]
    refine List.filter_congr fun e _ => ?_
    by_cases h : p <+: e.1
    · simpa [h] using prefix_le h
    · simp [h]
  have hsorted : (m.above p).Pairwise fun a b => a.1 < b.1 := by
    rw [above_eq_filter]
    exact m.sorted.filter _
  have hge : ∀ e ∈ m.above p, p ≤ e.1 := fun e he => (mem_above.mp he).2
  rw [hall]
  clear hall
  generalize m.above p = above at hsorted hge ⊢
  induction above with
  | nil => rfl
  | cons e l ih =>
    obtain ⟨hhead, htail⟩ := List.pairwise_cons.mp hsorted
    by_cases he : p <+: e.1
    · simp [he, ih htail fun e' he' => hge e' (List.mem_cons_of_mem e he')]
    · have hnone : l.filter (fun e => p.isPrefixOf e.1) = [] := by
        rw [List.filter_eq_nil_iff]
        intro b hb hpb
        exact he (prefix_of_le_of_le (by simpa using hpb) (hge e List.mem_cons_self)
          (hhead b hb).le)
      simp [he, hnone]

/-- Up to the next prefix, the entries from the prefix on are those that have it. -/
theorem filter_below_next {q : List α} {a b : α} (h : a ⋖ b) :
    (m.below (q ++ [b])).filter (q ++ [a] ≤ ·.1) = m.withPrefix (q ++ [a]) := by
  rw [below_eq_filter, List.filter_filter, withPrefix]
  refine List.filter_congr fun e _ => ?_
  rw [Bool.eq_iff_iff]
  simp [prefix_iff_of_covBy h]

/-- The entries before the next prefix: those before the prefix, then those that have it. -/
theorem below_next {q : List α} {a b : α} (h : a ⋖ b) :
    m.below (q ++ [b]) = m.below (q ++ [a]) ++ m.withPrefix (q ++ [a]) := by
  have hsplit : ∀ l : List (List α × β), l.Pairwise (fun a b => a.1 < b.1) →
      l.filter (·.1 < q ++ [a]) ++ l.filter (q ++ [a] ≤ ·.1) = l := by
    intro l hl
    have hl' := below_append_above (⟨l, hl⟩ : OrderedMap (List α) β) (q ++ [a])
    rw [below_eq_filter, above_eq_filter] at hl'
    convert hl'
  have hsorted : (m.below (q ++ [b])).Pairwise fun a b => a.1 < b.1 := by
    rw [below_eq_filter]
    exact m.sorted.filter _
  rw [← hsplit _ hsorted, filter_below_next m h]
  congr 1
  rw [below_eq_filter, below_eq_filter, List.filter_filter]
  refine List.filter_congr fun e _ => ?_
  have hlt : q ++ [a] < q ++ [b] := append_singleton_lt h.1
  rw [Bool.eq_iff_iff]
  simp only [Bool.and_eq_true, decide_eq_true_eq]
  exact ⟨fun hlt' => hlt'.1, fun hlt' => ⟨hlt', hlt'.trans hlt⟩⟩

/-- From the prefix on come the entries that have it, then those from the next prefix on. -/
theorem above_prefix {q : List α} {a b : α} (h : a ⋖ b) :
    m.above (q ++ [a]) = m.withPrefix (q ++ [a]) ++ m.above (q ++ [b]) := by
  have hb := below_append_above m (q ++ [b])
  rw [below_next m h, List.append_assoc] at hb
  exact List.append_cancel_left ((below_append_above m (q ++ [a])).trans hb.symm)

end OrderedMap

end Basis
