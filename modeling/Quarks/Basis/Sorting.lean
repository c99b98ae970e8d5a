import Mathlib.Data.List.Sort

/-!
# Sorting with a comparison

A comparison function sorts a list if it is a strict weak order on the elements: elements of
which neither is less than the other are equivalent. A sort that is not stable may leave
equivalent elements in any order.
-/

namespace Basis

variable {α : Type}

/-- Neither element is less than the other one. -/
def Equivalent (lt : α → α → Bool) (a b : α) : Prop := lt a b = false ∧ lt b a = false

instance {lt : α → α → Bool} {a b : α} : Decidable (Equivalent lt a b) :=
  inferInstanceAs (Decidable (lt a b = false ∧ lt b a = false))

/-- The comparison is a strict weak order on the elements of the list. -/
structure StrictWeakOn (lt : α → α → Bool) (l : List α) : Prop where
  irrefl : ∀ a ∈ l, lt a a = false
  trans : ∀ a ∈ l, ∀ b ∈ l, ∀ c ∈ l, lt a b = true → lt b c = true → lt a c = true
  equivalent_trans : ∀ a ∈ l, ∀ b ∈ l, ∀ c ∈ l, Equivalent lt a b → Equivalent lt b c →
    Equivalent lt a c

instance {lt : α → α → Bool} {l : List α} : Decidable (StrictWeakOn lt l) :=
  decidable_of_iff ((∀ a ∈ l, lt a a = false) ∧
      (∀ a ∈ l, ∀ b ∈ l, ∀ c ∈ l, lt a b = true → lt b c = true → lt a c = true) ∧
      ∀ a ∈ l, ∀ b ∈ l, ∀ c ∈ l, Equivalent lt a b → Equivalent lt b c → Equivalent lt a c)
    ⟨fun h => ⟨h.1, h.2.1, h.2.2⟩, fun h => ⟨h.irrefl, h.trans, h.equivalent_trans⟩⟩

/-- A sort that is not stable. Nothing is said of its order where the comparison is not a
strict weak order. -/
class UnstableSort where
  sort : {α : Type} → (α → α → Bool) → List α → List α
  perm : ∀ {α : Type} (lt : α → α → Bool) (l : List α), (sort lt l).Perm l
  ordered : ∀ {α : Type} {lt : α → α → Bool} {l : List α}, StrictWeakOn lt l →
    (sort lt l).Pairwise fun a b => lt b a = false

/-- A single element only has to be no less than itself. -/
theorem StrictWeakOn.singleton {lt : α → α → Bool} {a : α} (h : lt a a = false) :
    StrictWeakOn lt [a] := by
  constructor
  · simpa using h
  · simp [h]
  · simp [Equivalent, h]

/-- What is not greater is less or equivalent, and so on to the next element. -/
theorem StrictWeakOn.not_gt_trans {lt : α → α → Bool} {l : List α} (h : StrictWeakOn lt l)
    {a b c : α} (ha : a ∈ l) (hb : b ∈ l) (hc : c ∈ l) (hab : lt b a = false)
    (hbc : lt c b = false) : lt c a = false := by
  by_contra hca
  rw [Bool.not_eq_false] at hca
  cases hab' : lt a b with
  | true =>
    rw [h.trans c hc a ha b hb hca hab'] at hbc
    cases hbc
  | false =>
    cases hbc' : lt b c with
    | true =>
      rw [h.trans b hb c hc a ha hbc' hca] at hab
      cases hab
    | false =>
      have hequiv := h.equivalent_trans a ha b hb c hc ⟨hab', hab⟩ ⟨hbc', hbc⟩
      rw [hequiv.2] at hca
      cases hca

/-- Of two elements one is not greater. -/
theorem StrictWeakOn.not_gt_total {lt : α → α → Bool} {l : List α} (h : StrictWeakOn lt l)
    {a b : α} (ha : a ∈ l) (hb : b ∈ l) (hab : lt b a = true) : lt a b = false := by
  by_contra hba
  rw [Bool.not_eq_false] at hba
  have hself := h.trans a ha b hb a ha hba hab
  rw [h.irrefl a ha] at hself
  cases hself

/-- Inserting an element keeps the order. -/
theorem StrictWeakOn.orderedInsert {lt : α → α → Bool} {l s : List α} (h : StrictWeakOn lt l)
    {a : α} (ha : a ∈ l) (hs : ∀ b ∈ s, b ∈ l) (hsorted : s.Pairwise fun a b => lt b a = false) :
    (s.orderedInsert (fun a b => lt b a = false) a).Pairwise fun a b => lt b a = false := by
  induction s with
  | nil => exact List.pairwise_singleton _ _
  | cons b s ih =>
    obtain ⟨hb, hs'⟩ := List.forall_mem_cons.mp hs
    obtain ⟨hfirst, hrest⟩ := List.pairwise_cons.mp hsorted
    rw [List.orderedInsert_cons]
    split
    · next hab =>
      refine List.pairwise_cons.mpr ⟨fun c hc => ?_, hsorted⟩
      rcases List.mem_cons.mp hc with rfl | hc
      · exact hab
      · exact h.not_gt_trans ha hb (hs' c hc) hab (hfirst c hc)
    · next hab =>
      rw [Bool.not_eq_false] at hab
      refine List.pairwise_cons.mpr ⟨fun c hc => ?_, ih hs' hrest⟩
      rcases List.mem_cons.mp ((List.perm_orderedInsert _ a s).subset hc) with rfl | hc
      · exact h.not_gt_total ha hb hab
      · exact hfirst c hc

/-- Insertion sort is one of these sorts. -/
@[reducible] def UnstableSort.insertion : UnstableSort where
  sort lt l := l.insertionSort fun a b => lt b a = false
  perm _ l := List.perm_insertionSort _ l
  ordered := by
    intro α lt l h
    have hsorted : ∀ s : List α, (∀ a ∈ s, a ∈ l) →
        (s.insertionSort fun a b => lt b a = false).Pairwise fun a b => lt b a = false := by
      intro s
      induction s with
      | nil => exact fun _ => List.Pairwise.nil
      | cons a s ih =>
        intro hs
        obtain ⟨ha, hs'⟩ := List.forall_mem_cons.mp hs
        exact h.orderedInsert ha (fun b hb => hs' b ((List.mem_insertionSort _).mp hb)) (ih hs')
    exact hsorted l fun _ ha => ha

/-- Insertion sort of the reversed list, which leaves equivalent elements in the other order. -/
@[reducible] def UnstableSort.reversedInsertion : UnstableSort where
  sort lt l := UnstableSort.insertion.sort lt l.reverse
  perm lt l := (UnstableSort.insertion.perm lt l.reverse).trans l.reverse_perm
  ordered := by
    intro α lt l h
    have hmem : ∀ a, a ∈ l.reverse → a ∈ l := fun a => List.mem_reverse.mp
    exact UnstableSort.insertion.ordered ⟨fun a ha => h.irrefl a (hmem a ha),
      fun a ha b hb c hc => h.trans a (hmem a ha) b (hmem b hb) c (hmem c hc),
      fun a ha b hb c hc => h.equivalent_trans a (hmem a ha) b (hmem b hb) c (hmem c hc)⟩

/-- Every sort brings a list into an order exactly if the order holds for any two elements
wherever the comparison does not speak against it. -/
theorem UnstableSort.forall_pairwise_iff {lt : α → α → Bool} {l : List α} {le : α → α → Prop}
    (h : StrictWeakOn lt l) :
    (∀ sorting : UnstableSort, (sorting.sort lt l).Pairwise le) ↔
      l.Pairwise fun a b => (lt b a = false → le a b) ∧ (lt a b = false → le b a) := by
  constructor
  · intro hall
    rw [List.pairwise_iff_forall_sublist]
    intro a b hab
    constructor
    · intro hlt
      have hkept := List.pair_sublist_insertionSort (r := fun a b => lt b a = false) hlt hab
      exact List.pairwise_iff_forall_sublist.mp (hall UnstableSort.insertion) hkept
    · intro hlt
      have hba : [b, a].Sublist l.reverse := by simpa using List.reverse_sublist.mpr hab
      have hkept := List.pair_sublist_insertionSort (r := fun a b => lt b a = false) hlt hba
      exact List.pairwise_iff_forall_sublist.mp (hall UnstableSort.reversedInsertion) hkept
  · intro hle sorting
    have hsymm : ∀ {a b : α}, ((lt b a = false → le a b) ∧ (lt a b = false → le b a)) →
        (lt a b = false → le b a) ∧ (lt b a = false → le a b) := fun h => ⟨h.2, h.1⟩
    have hsorted := (sorting.perm lt l).symm.pairwise hle fun h => hsymm h
    exact (hsorted.and (sorting.ordered h)).imp fun hab => hab.1.1 hab.2

/-! ## A comparison within classes -/

/-- The comparison orders the elements of one class, and none of different classes. -/
structure OrderedWithin {κ : Type} (lt : α → α → Bool) (kind : α → κ) (l : List α) : Prop where
  irrefl : ∀ a ∈ l, lt a a = false
  trans : ∀ a ∈ l, ∀ b ∈ l, ∀ c ∈ l, lt a b = true → lt b c = true → lt a c = true
  sameKind : ∀ a ∈ l, ∀ b ∈ l, lt a b = true → kind a = kind b
  between : ∀ a ∈ l, ∀ b ∈ l, ∀ c ∈ l, lt a c = true → kind b = kind a →
    lt a b = true ∨ lt b c = true

/-- Such a comparison is a strict weak order exactly if two elements that it orders are of the
class of all the others. -/
theorem OrderedWithin.strictWeakOn_iff {κ : Type} {lt : α → α → Bool} {kind : α → κ}
    {l : List α} (h : OrderedWithin lt kind l) : StrictWeakOn lt l ↔
      ∀ a ∈ l, ∀ b ∈ l, ∀ c ∈ l, lt a b = true → kind c = kind a := by
  have hother : ∀ a ∈ l, ∀ b ∈ l, kind a ≠ kind b → lt a b = false := by
    intro a ha b hb hkind
    by_contra hlt
    exact hkind (h.sameKind a ha b hb (by simpa using hlt))
  constructor
  · intro hstrict a ha b hb c hc hab
    by_contra hkind
    -- an element of another class is equivalent to both
    have hkind' : kind c ≠ kind b := by rwa [← h.sameKind a ha b hb hab]
    have hac : Equivalent lt a c := ⟨hother a ha c hc (Ne.symm hkind), hother c hc a ha hkind⟩
    have hcb : Equivalent lt c b := ⟨hother c hc b hb hkind', hother b hb c hc hkind'.symm⟩
    rw [(hstrict.equivalent_trans a ha c hc b hb hac hcb).1] at hab
    cases hab
  · intro hone
    have hnot : ∀ a ∈ l, ∀ b ∈ l, ∀ c ∈ l, lt a b = false → lt b c = false → lt a c = false := by
      intro a ha b hb c hc hab hbc
      by_contra hac
      rw [Bool.not_eq_false] at hac
      rcases h.between a ha b hb c hc hac (hone a ha c hc b hb hac) with hlt | hlt
      · rw [hab] at hlt
        cases hlt
      · rw [hbc] at hlt
        cases hlt
    exact ⟨h.irrefl, h.trans, fun a ha b hb c hc hab hbc =>
      ⟨hnot a ha b hb c hc hab.1 hbc.1, hnot c hc b hb a ha hbc.2 hab.2⟩⟩

end Basis
