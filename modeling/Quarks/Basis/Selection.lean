import Mathlib.Data.List.Basic
import Mathlib.Data.Nat.Basic

/-!
# Selecting elements by their positions

A window onto a list holds some of its positions. Consecutive windows of one size
are the pages of the list.
-/

namespace Basis

variable {α β : Type*}

/-- The elements at the positions that are held; the first element is at position `k`. -/
def selectAt (held : ℕ → Bool) : ℕ → List α → List α
  | _, [] => []
  | k, e :: es => if held k then e :: selectAt held (k + 1) es else selectAt held (k + 1) es

variable {held held' : ℕ → Bool}

theorem selectAt_append (k : ℕ) (l l' : List α) :
    selectAt held k (l ++ l') = selectAt held k l ++ selectAt held (k + l.length) l' := by
  induction l generalizing k with
  | nil => rfl
  | cons e l ih =>
    have hlen : k + 1 + l.length = k + (l.length + 1) := by omega
    simp only [List.cons_append, selectAt, ih, List.length_cons, hlen]
    split <;> rfl

theorem selectAt_sublist (k : ℕ) (l : List α) : (selectAt held k l).Sublist l := by
  induction l generalizing k with
  | nil => exact List.Sublist.refl _
  | cons e l ih =>
    unfold selectAt
    split
    · exact (ih _).cons_cons e
    · exact (ih _).cons e

/-- Holding more positions selects more elements. -/
theorem selectAt_sublist_selectAt (h : ∀ p, held p = true → held' p = true) (k : ℕ)
    (l : List α) : (selectAt held k l).Sublist (selectAt held' k l) := by
  induction l generalizing k with
  | nil => exact List.Sublist.refl _
  | cons e l ih =>
    cases hk : held k with
    | true => simpa [selectAt, hk, h k hk] using ih (k + 1)
    | false =>
      simp only [selectAt, hk, Bool.false_eq_true, if_false]
      split
      · exact (ih _).cons e
      · exact ih _

/-- Two ways to hold positions select the same if they agree within the list. -/
theorem selectAt_congr {k : ℕ} {l : List α}
    (h : ∀ p, k ≤ p → p < k + l.length → held p = held' p) :
    selectAt held k l = selectAt held' k l := by
  induction l generalizing k with
  | nil => rfl
  | cons e l ih =>
    have hk := h k le_rfl (by simp)
    have ih' := ih (k := k + 1) fun p hp hlt => h p (by omega) (by simp; omega)
    simp only [selectAt, hk, ih']

/-- Holding more positions selects the same only if none of them lies within the list. -/
theorem selectAt_eq_selectAt_iff (h : ∀ p, held p = true → held' p = true) {k : ℕ}
    {l : List α} : selectAt held k l = selectAt held' k l ↔
      ∀ p, k ≤ p → p < k + l.length → held' p = true → held p = true := by
  constructor
  · induction l generalizing k with
    | nil =>
      intro _ p hp hlt
      simp at hlt
      omega
    | cons e l ih =>
      intro heq
      have hsub := selectAt_sublist_selectAt h (k + 1) l
      have hhead : held k = held' k ∧ selectAt held (k + 1) l = selectAt held' (k + 1) l := by
        simp only [selectAt] at heq
        cases hk : held k with
        | true => simpa [hk, h k hk] using heq
        | false =>
          cases hk' : held' k with
          | false => simpa [hk, hk'] using heq
          | true =>
            simp only [hk, hk', Bool.false_eq_true, if_false, if_true] at heq
            have hlen := hsub.length_le
            rw [heq] at hlen
            exact absurd hlen (by simp)
      intro p hp hlt hheld'
      rcases Nat.eq_or_lt_of_le hp with rfl | hlt'
      · rw [hhead.1]
        exact hheld'
      · exact ih hhead.2 p hlt' (by simp only [List.length_cons] at hlt; omega) hheld'
  · intro hall
    refine selectAt_congr fun p hp hlt => ?_
    rw [Bool.eq_iff_iff]
    exact ⟨h p, hall p hp hlt⟩

/-- From a list without repetitions, two ways to hold positions select the same only if they agree
within the list. -/
theorem selectAt_eq_selectAt_iff_of_nodup {k : ℕ} {l : List α} (hl : l.Nodup) :
    selectAt held k l = selectAt held' k l ↔
      ∀ p, k ≤ p → p < k + l.length → held p = held' p := by
  refine ⟨fun heq => ?_, selectAt_congr⟩
  induction l generalizing k with
  | nil =>
    intro p hp hlt
    simp at hlt
    omega
  | cons e l ih =>
    obtain ⟨he, hl⟩ := List.nodup_cons.mp hl
    have hnot : ∀ held : ℕ → Bool, e ∉ selectAt held (k + 1) l := fun held hmem =>
      he ((selectAt_sublist (k + 1) l).subset hmem)
    have hhead : held k = held' k ∧ selectAt held (k + 1) l = selectAt held' (k + 1) l := by
      simp only [selectAt] at heq
      cases hk : held k <;> cases hk' : held' k <;>
        simp only [hk, hk', Bool.false_eq_true, if_false, if_true] at heq
      · exact ⟨rfl, heq⟩
      · exact absurd (heq.symm ▸ List.mem_cons_self) (hnot held)
      · exact absurd (heq ▸ List.mem_cons_self) (hnot held')
      · exact ⟨rfl, (List.cons.inj heq).2⟩
    intro p hp hlt
    rcases Nat.eq_or_lt_of_le hp with rfl | hlt'
    · exact hhead.1
    · exact ih hl hhead.2 p hlt' (by simp only [List.length_cons] at hlt; omega)

/-- A filter by positions. -/
theorem filter_zipIdx_eq_selectAt (k : ℕ) (l : List α) :
    ((l.zipIdx k).filter fun e => held e.2).map Prod.fst = selectAt held k l := by
  induction l generalizing k with
  | nil => rfl
  | cons e l ih =>
    rw [List.zipIdx_cons, List.filter_cons, selectAt]
    split
    · rw [List.map_cons, ih]
    · exact ih (k + 1)

theorem selectAt_eq_nil_iff {k : ℕ} {l : List α} :
    selectAt held k l = [] ↔ ∀ p, k ≤ p → p < k + l.length → held p = false := by
  induction l generalizing k with
  | nil =>
    simp only [selectAt, List.length_nil, true_iff]
    intro p hp hlt
    omega
  | cons e l ih =>
    have hlen : k + (e :: l).length = k + 1 + l.length := by simp; omega
    simp only [selectAt, hlen]
    split
    · next hk =>
      simp only [reduceCtorEq, false_iff]
      exact fun hall => by simp [hall k le_rfl (by omega)] at hk
    · next hk =>
      rw [ih]
      constructor
      · intro hall p hp hlt
        rcases Nat.eq_or_lt_of_le hp with rfl | hlt'
        · simpa using hk
        · exact hall p hlt' hlt
      · exact fun hall p hp => hall p (by omega)

theorem selectAt_of_forall {k : ℕ} {l : List α} (h : ∀ p, k ≤ p → held p = true) :
    selectAt held k l = l := by
  induction l generalizing k with
  | nil => rfl
  | cons e l ih =>
    rw [selectAt, if_pos (h k le_rfl), ih fun p hp => h p (by omega)]

/-- Holding every position from `a` on drops the elements before. -/
theorem selectAt_drop (a : ℕ) {k : ℕ} (l : List α) :
    selectAt (fun p => decide (a ≤ p)) k l = l.drop (a - k) := by
  induction l generalizing k with
  | nil => simp [selectAt]
  | cons e l ih =>
    by_cases hk : a ≤ k
    · rw [Nat.sub_eq_zero_of_le hk, List.drop_zero]
      exact selectAt_of_forall fun p hp => by simp; omega
    · rw [selectAt, if_neg (by simpa using hk), ih, show a - k = a - (k + 1) + 1 by omega]
      rfl

/-- Holding `n` positions from `a` on selects a window of that size. -/
theorem selectAt_window (a n : ℕ) {k : ℕ} (l : List α) :
    selectAt (fun p => decide (a ≤ p) && decide (p < a + n)) k l =
      (l.take (a + n - k)).drop (a - k) := by
  induction l generalizing k with
  | nil => simp [selectAt]
  | cons e l ih =>
    rw [selectAt, ih]
    by_cases hlt : k < a + n
    · rw [show a + n - k = a + n - (k + 1) + 1 by omega, List.take_succ_cons]
      by_cases hk : a ≤ k
      · rw [if_pos (by simp [hk, hlt]), Nat.sub_eq_zero_of_le hk,
          Nat.sub_eq_zero_of_le (by omega : a ≤ k + 1)]
        rfl
      · rw [if_neg (by simp [hk]), show a - k = a - (k + 1) + 1 by omega]
        rfl
    · rw [if_neg (by simp [hlt]), Nat.sub_eq_zero_of_le (by omega : a + n ≤ k),
        Nat.sub_eq_zero_of_le (by omega : a + n ≤ k + 1)]
      simp

/-- The pages of a list, one after the other, are the list. -/
theorem flatMap_pages (n : ℕ) (l : List α) (pages : ℕ) :
    (List.range pages).flatMap (fun k => (l.drop (k * n)).take n) = l.take (pages * n) := by
  induction pages with
  | zero => simp
  | succ pages ih =>
    rw [List.range_succ, List.flatMap_append, ih, List.flatMap_cons, List.flatMap_nil,
      List.append_nil, ← List.take_add, Nat.succ_mul]

/-! ## Filtering and windows -/

section

variable {f : α → Option β} {l : List α}

/-- What the filter keeps of a list comes before what it drops. -/
def KeptFirst (f : α → Option β) (l : List α) : Prop :=
  l.Pairwise fun a b => (f b).isSome → (f a).isSome

instance (f : α → Option β) (l : List α) : Decidable (KeptFirst f l) :=
  inferInstanceAs (Decidable (l.Pairwise fun a b => (f b).isSome → (f a).isSome))

/-- If the first element is dropped, all are. -/
theorem KeptFirst.filterMap_eq_nil {a : α} (h : KeptFirst f (a :: l)) (ha : f a = none) :
    l.filterMap f = [] := by
  refine List.filterMap_eq_nil_iff.mpr fun b hb => ?_
  have hkept := List.rel_of_pairwise_cons h hb
  rw [ha] at hkept
  simpa using hkept

theorem KeptFirst.filterMap_take (h : KeptFirst f l) (n : ℕ) :
    (l.take n).filterMap f = (l.filterMap f).take n := by
  induction l generalizing n with
  | nil => simp
  | cons a l ih =>
    cases n with
    | zero => simp
    | succ n =>
      cases ha : f a with
      | none =>
        have hnil := h.filterMap_eq_nil ha
        have htake : (l.take n).filterMap f = [] :=
          List.filterMap_eq_nil_iff.mpr fun b hb =>
            List.filterMap_eq_nil_iff.mp hnil b (List.mem_of_mem_take hb)
        simp [ha, hnil, htake]
      | some b => simp [ha, ih h.of_cons]

theorem KeptFirst.filterMap_drop (h : KeptFirst f l) (n : ℕ) :
    (l.drop n).filterMap f = (l.filterMap f).drop n := by
  induction l generalizing n with
  | nil => simp
  | cons a l ih =>
    cases n with
    | zero => rfl
    | succ n =>
      cases ha : f a with
      | none =>
        have hnil := h.filterMap_eq_nil ha
        have hdrop : (l.drop n).filterMap f = [] :=
          List.filterMap_eq_nil_iff.mpr fun b hb =>
            List.filterMap_eq_nil_iff.mp hnil b (List.mem_of_mem_drop hb)
        simp [ha, hnil, hdrop]
      | some b => simp [ha, ih h.of_cons]

theorem keptFirst_of_dropped (h : ∀ a ∈ l, f a = none) : KeptFirst f l := by
  refine List.pairwise_iff_getElem.mpr fun i j _ hj _ hkept => ?_
  rw [h _ (List.getElem_mem hj)] at hkept
  cases hkept

/-- A filter commutes with windows at the front only if it drops nothing in front of what it
keeps. -/
theorem keptFirst_of_take (h : ∀ n < l.length, (l.take n).filterMap f = (l.filterMap f).take n) :
    KeptFirst f l := by
  induction l with
  | nil => exact List.Pairwise.nil
  | cons a l ih =>
    have htail : ∀ b, f a = some b → KeptFirst f l := by
      intro b ha
      refine ih fun n hn => ?_
      have hstep := h (n + 1) (by simpa using hn)
      simpa [ha] using hstep
    cases ha : f a with
    | some b => exact List.pairwise_cons.mpr ⟨fun _ _ _ => by simp [ha], htail b ha⟩
    | none =>
      cases l with
      | nil => exact List.pairwise_singleton _ _
      | cons c l =>
        have hone := h 1 (by simp)
        simp only [List.take_succ_cons, List.take_zero, List.filterMap_cons, ha,
          List.filterMap_nil] at hone
        have hnil : (c :: l).filterMap f = [] := by
          rcases List.take_eq_nil_iff.mp hone.symm with hzero | hnil
          · cases hzero
          · exact hnil
        exact keptFirst_of_dropped
          (List.forall_mem_cons.mpr ⟨ha, List.filterMap_eq_nil_iff.mp hnil⟩)

end

/-- Going through the elements of several classes one class after the other meets each element of
one of the classes once. -/
theorem flatMap_filter_perm [DecidableEq β] (f : α → β) (q : α → Bool) (l : List α)
    {classes : List β} (hnodup : classes.Nodup) :
    (classes.flatMap fun b => l.filter fun a => decide (f a = b) && q a).Perm
      (l.filter fun a => decide (f a ∈ classes) && q a) := by
  induction classes with
  | nil => simp
  | cons b classes ih =>
    obtain ⟨hb, hrest⟩ := List.nodup_cons.mp hnodup
    have hsplit := List.filter_append_perm (fun a => decide (f a = b))
      (l.filter fun a => decide (f a ∈ b :: classes) && q a)
    have hfirst : (l.filter fun a => decide (f a ∈ b :: classes) && q a).filter
        (fun a => decide (f a = b)) = l.filter fun a => decide (f a = b) && q a := by
      rw [List.filter_filter]
      refine List.filter_congr fun a _ => ?_
      by_cases ha : f a = b <;> simp [ha]
    have hlater : (l.filter fun a => decide (f a ∈ b :: classes) && q a).filter
        (fun a => !decide (f a = b)) = l.filter fun a => decide (f a ∈ classes) && q a := by
      rw [List.filter_filter]
      refine List.filter_congr fun a _ => ?_
      by_cases ha : f a = b
      · simp [ha, hb]
      · simp [ha]
    rw [hfirst, hlater] at hsplit
    rw [List.flatMap_cons]
    exact ((ih hrest).append_left _).trans hsplit

end Basis
