import Mathlib.Data.List.Sort
import Mathlib.Order.Basic
import Mathlib.Data.List.Lex

/-!
# Finite maps in key order, and cursors over them

A finite map whose entries are kept in strictly increasing key order. The order
is part of the type, so that two maps with the same lookups are equal and every
scan meets the keys in order. A cursor is a position in such a map, with the
contract of an ordered iterator: a seek lands on the first key that is not
smaller, and a cursor that has become invalid stays invalid.
-/

namespace Basis

/-- A finite map given by its entries in strictly increasing key order. -/
structure OrderedMap (κ α : Type*) [LinearOrder κ] where
  /-- The entries of the map, smallest key first. -/
  entries : List (κ × α)
  /-- The keys increase strictly, so that no key occurs twice. -/
  sorted : entries.Pairwise fun a b => a.1 < b.1

namespace OrderedMap

variable {κ α : Type*} [LinearOrder κ]

/-- The map without entries. -/
def empty : OrderedMap κ α := ⟨[], List.Pairwise.nil⟩

/-- The value stored under a key, if there is one. -/
def find? (m : OrderedMap κ α) (k : κ) : Option α := m.entries.lookup k

/-- A key is in the map when it has a value. -/
instance : Membership κ (OrderedMap κ α) := ⟨fun m k => (m.find? k).isSome = true⟩

instance (m : OrderedMap κ α) (k : κ) : Decidable (k ∈ m) :=
  inferInstanceAs (Decidable ((m.find? k).isSome = true))

/-- Store a value under a key, replacing the one that was there. -/
def insert (m : OrderedMap κ α) (k : κ) (v : α) : OrderedMap κ α where
  entries := m.entries.filter (·.1 < k) ++ (k, v) :: m.entries.filter (k < ·.1)
  sorted := by
    refine List.pairwise_append.mpr ⟨m.sorted.filter _, ?_, ?_⟩
    · refine List.pairwise_cons.mpr ⟨?_, m.sorted.filter _⟩
      intro e he
      simpa using (List.mem_filter.mp he).2
    · intro a ha b hb
      have hak : a.1 < k := by simpa using (List.mem_filter.mp ha).2
      rcases List.mem_cons.mp hb with rfl | hb
      · exact hak
      · exact hak.trans (by simpa using (List.mem_filter.mp hb).2)

/-- Remove a key together with its value. -/
def erase (m : OrderedMap κ α) (k : κ) : OrderedMap κ α :=
  ⟨m.entries.filter (·.1 ≠ k), m.sorted.filter _⟩

/-- The keys of the map in increasing order. -/
def keys (m : OrderedMap κ α) : List κ := m.entries.map Prod.fst

/-- No key occurs twice. -/
theorem nodup_keys (m : OrderedMap κ α) : m.keys.Nodup :=
  List.pairwise_map.mpr (m.sorted.imp fun h => h.ne)

/-- Lookup and membership in the list of entries agree, as no key occurs twice. -/
theorem find?_eq_some {m : OrderedMap κ α} {k : κ} {v : α} :
    m.find? k = some v ↔ (k, v) ∈ m.entries := by
  obtain ⟨l, hl⟩ := m
  simp only [find?]
  induction l with
  | nil => simp
  | cons e l ih =>
    obtain ⟨hhead, htail⟩ := List.pairwise_cons.mp hl
    rw [List.lookup_cons]
    by_cases hk : k = e.1
    · have hnot : (k, v) ∉ l := fun hmem => absurd (hhead _ hmem) (by simp [hk])
      simp [hk, Prod.ext_iff, eq_comm]
      intro hmem
      exact absurd (hk ▸ hmem) hnot
    · have hbeq : (k == e.1) = false := by simpa using hk
      simp [hbeq, ih htail, Prod.ext_iff, hk]

theorem mem_iff {m : OrderedMap κ α} {k : κ} : k ∈ m ↔ ∃ v, m.find? k = some v :=
  Option.isSome_iff_exists

theorem mem_iff_entries {m : OrderedMap κ α} {k : κ} : k ∈ m ↔ ∃ e ∈ m.entries, e.1 = k := by
  simp only [mem_iff, find?_eq_some]
  constructor
  · rintro ⟨v, hv⟩
    exact ⟨_, hv, rfl⟩
  · rintro ⟨e, he, rfl⟩
    exact ⟨e.2, he⟩

/-- A key that is not in the map is not found. -/
theorem find?_of_not_mem {m : OrderedMap κ α} {k : κ} (h : k ∉ m) : m.find? k = none :=
  Option.not_isSome_iff_eq_none.mp h

/-- Two maps with the same entries are equal. -/
theorem ext_entries {m m' : OrderedMap κ α} (h : m.entries = m'.entries) : m = m' := by
  cases m
  cases m'
  congr

/-- Two maps with the same lookups are equal: the order leaves one list of entries. -/
@[ext] theorem ext_find? {m m' : OrderedMap κ α} (h : ∀ k, m.find? k = m'.find? k) : m = m' := by
  have hmem : ∀ e, e ∈ m.entries ↔ e ∈ m'.entries := by
    rintro ⟨k, v⟩
    rw [← find?_eq_some, ← find?_eq_some, h]
  have hnodup : ∀ m : OrderedMap κ α, m.entries.Nodup := fun m =>
    m.sorted.imp fun {a b} hab heq => absurd (heq ▸ hab) (lt_irrefl _)
  have hperm := (List.perm_ext_iff_of_nodup (hnodup m) (hnodup m')).mpr hmem
  apply ext_entries
  exact hperm.eq_of_pairwise (fun a b _ _ hab hba => absurd (hab.trans hba) (lt_irrefl _))
    m.sorted m'.sorted

theorem mem_insert {m : OrderedMap κ α} {k : κ} {v : α} {e : κ × α} :
    e ∈ (m.insert k v).entries ↔ e = (k, v) ∨ e ∈ m.entries ∧ e.1 ≠ k := by
  simp only [insert, List.mem_append, List.mem_filter, List.mem_cons, decide_eq_true_eq]
  constructor
  · rintro (⟨he, hlt⟩ | rfl | ⟨he, hlt⟩)
    · exact Or.inr ⟨he, hlt.ne⟩
    · exact Or.inl rfl
    · exact Or.inr ⟨he, hlt.ne'⟩
  · rintro (rfl | ⟨he, hne⟩)
    · exact Or.inr (Or.inl rfl)
    · rcases lt_or_gt_of_ne hne with hlt | hgt
      · exact Or.inl ⟨he, hlt⟩
      · exact Or.inr (Or.inr ⟨he, hgt⟩)

@[simp] theorem find?_empty (k : κ) : (empty : OrderedMap κ α).find? k = none := rfl

/-- A lookup after an insertion. -/
theorem find?_insert (m : OrderedMap κ α) (k k' : κ) (v : α) :
    (m.insert k v).find? k' = if k' = k then some v else m.find? k' := by
  ext w
  rw [find?_eq_some, mem_insert]
  by_cases hk : k' = k
  · simp [hk, eq_comm]
  · simp [hk, find?_eq_some]

@[simp] theorem find?_insert_self (m : OrderedMap κ α) (k : κ) (v : α) :
    (m.insert k v).find? k = some v := by simp [find?_insert]

/-- A lookup after a removal. -/
theorem find?_erase (m : OrderedMap κ α) (k k' : κ) :
    (m.erase k).find? k' = if k' = k then none else m.find? k' := by
  ext w
  rw [find?_eq_some]
  by_cases hk : k' = k
  · simp [hk, erase]
  · simp [hk, erase, find?_eq_some]

theorem mem_erase_iff {m : OrderedMap κ α} {k k' : κ} : k' ∈ m.erase k ↔ k' ≠ k ∧ k' ∈ m := by
  simp only [mem_iff, find?_erase]
  split
  · next hk => simp [hk]
  · next hk => simp [hk]

/-- Storing what is already stored changes nothing. -/
theorem insert_of_find? {m : OrderedMap κ α} {k : κ} {v : α} (h : m.find? k = some v) :
    m.insert k v = m := by
  ext1 k'
  rw [find?_insert]
  split
  · next hk => rw [hk, h]
  · rfl

/-- Removing a key that is absent changes nothing. -/
theorem erase_of_not_mem {m : OrderedMap κ α} {k : κ} (h : k ∉ m) : m.erase k = m := by
  ext1 k'
  rw [find?_erase]
  split
  · next hk => rw [hk, find?_of_not_mem h]
  · rfl

/-- Two maps have the same keys when each key has a value in both or in neither. -/
theorem mem_insert_iff {m : OrderedMap κ α} {k k' : κ} {v : α} :
    k' ∈ m.insert k v ↔ k' = k ∨ k' ∈ m := by
  simp only [mem_iff, find?_insert]
  split
  · next hk => simp [hk]
  · next hk => simp [hk]

/-- Removing several keys, one after the other. -/
def eraseAll (m : OrderedMap κ α) (ks : List κ) : OrderedMap κ α := ks.foldl erase m

theorem find?_eraseAll (m : OrderedMap κ α) (ks : List κ) (k : κ) :
    (m.eraseAll ks).find? k = if k ∈ ks then none else m.find? k := by
  induction ks generalizing m with
  | nil => simp [eraseAll]
  | cons a ks ih =>
    have h := ih (m.erase a)
    simp only [eraseAll, List.foldl_cons] at h ⊢
    rw [h, find?_erase]
    by_cases hk : k = a <;> simp [hk]

@[simp] theorem eraseAll_nil (m : OrderedMap κ α) : m.eraseAll [] = m := rfl

theorem eraseAll_cons (m : OrderedMap κ α) (k : κ) (ks : List κ) :
    m.eraseAll (k :: ks) = (m.erase k).eraseAll ks := rfl

theorem eraseAll_append (m : OrderedMap κ α) (ks ks' : List κ) :
    m.eraseAll (ks ++ ks') = (m.eraseAll ks).eraseAll ks' := List.foldl_append

theorem mem_eraseAll {m : OrderedMap κ α} {ks : List κ} {k : κ} :
    k ∈ m.eraseAll ks ↔ k ∈ m ∧ k ∉ ks := by
  simp only [mem_iff, find?_eraseAll]
  split
  · next hk => simp [hk]
  · next hk => simp [hk]

/-- Removing keys that are all absent changes nothing. -/
theorem eraseAll_of_not_mem {m : OrderedMap κ α} {ks : List κ} (h : ∀ k ∈ ks, k ∉ m) :
    m.eraseAll ks = m := by
  ext1 k
  rw [find?_eraseAll]
  split
  · next hk => rw [find?_of_not_mem (h k hk)]
  · rfl

/-- The number of keys. -/
def size (m : OrderedMap κ α) : ℕ := m.entries.length

/-- Removing a key that is there leaves one key less. -/
theorem size_erase_add_one {m : OrderedMap κ α} {k : κ} (h : k ∈ m) :
    (m.erase k).size + 1 = m.size := by
  obtain ⟨v, hv⟩ := mem_iff.mp h
  obtain ⟨l, l', hl⟩ := List.append_of_mem (find?_eq_some.mp hv)
  have hsorted := m.sorted
  rw [hl, List.pairwise_append, List.pairwise_cons] at hsorted
  obtain ⟨-, ⟨hafter, -⟩, hbefore⟩ := hsorted
  have hkeep : l.filter (·.1 ≠ k) = l := by
    rw [List.filter_eq_self]
    intro e he
    simpa using (hbefore e he (k, v) List.mem_cons_self).ne
  have hkeep' : l'.filter (·.1 ≠ k) = l' := by
    rw [List.filter_eq_self]
    intro e he
    simpa using (hafter e he).ne'
  simp only [size, erase, hl, List.filter_append, List.filter_cons, hkeep, hkeep',
    List.length_append, List.length_cons]
  simp [Nat.add_assoc]

theorem size_erase_le (m : OrderedMap κ α) (k : κ) : (m.erase k).size ≤ m.size :=
  List.length_filter_le _ _

theorem size_eraseAll_le (m : OrderedMap κ α) (ks : List κ) : (m.eraseAll ks).size ≤ m.size := by
  induction ks generalizing m with
  | nil => exact Nat.le_refl _
  | cons k ks ih => exact (ih (m.erase k)).trans (size_erase_le m k)

/-- Removing different keys that are all there leaves so many keys less. -/
theorem size_eraseAll_add_length {m : OrderedMap κ α} {ks : List κ} (hnodup : ks.Nodup)
    (hmem : ∀ k ∈ ks, k ∈ m) : (m.eraseAll ks).size + ks.length = m.size := by
  induction ks generalizing m with
  | nil => rfl
  | cons k ks ih =>
    obtain ⟨hk, hnodup⟩ := List.nodup_cons.mp hnodup
    have hrest : ∀ k' ∈ ks, k' ∈ m.erase k := by
      intro k' hk'
      rw [mem_iff, find?_erase, if_neg (ne_of_mem_of_not_mem hk' hk), ← mem_iff]
      exact hmem k' (List.mem_cons_of_mem k hk')
    have hsize := size_erase_add_one (hmem k List.mem_cons_self)
    have hih : ((m.erase k).eraseAll ks).size + ks.length = (m.erase k).size :=
      ih hnodup hrest
    change ((m.erase k).eraseAll ks).size + (ks.length + 1) = m.size
    omega

/-- Removing keys leaves the number of keys as it is only if none of them was there. -/
theorem not_mem_of_size_eraseAll {m : OrderedMap κ α} {ks : List κ}
    (h : (m.eraseAll ks).size = m.size) : ∀ k ∈ ks, k ∉ m := by
  induction ks generalizing m with
  | nil =>
    intro k hk
    cases hk
  | cons k ks ih =>
    have hle : ((m.erase k).eraseAll ks).size ≤ (m.erase k).size := size_eraseAll_le _ ks
    have heq : ((m.erase k).eraseAll ks).size = m.size := h
    have hk : k ∉ m := by
      intro hmem
      have hsize := size_erase_add_one hmem
      omega
    rw [erase_of_not_mem hk] at heq
    intro k' hk'
    rcases List.mem_cons.mp hk' with rfl | hk'
    · exact hk
    · exact ih heq k' hk'

/-- Storing a list of entries, one after the other. -/
def insertAll (m : OrderedMap κ α) (es : List (κ × α)) : OrderedMap κ α :=
  es.foldl (fun m e => m.insert e.1 e.2) m

/-- Copying the entries of a map one by one into an empty map gives the map. -/
theorem insertAll_entries (m : OrderedMap κ α) : empty.insertAll m.entries = m := by
  have hgen : ∀ (es : List (κ × α)) (m₀ : OrderedMap κ α), es.Pairwise (fun a b => a.1 < b.1) →
      ∀ k, (m₀.insertAll es).find? k = (es.lookup k).or (m₀.find? k) := by
    intro es
    induction es with
    | nil => intro m₀ _ k; simp [insertAll]
    | cons e es ih =>
      intro m₀ hes k
      obtain ⟨hhead, htail⟩ := List.pairwise_cons.mp hes
      have h := ih (m₀.insert e.1 e.2) htail k
      simp only [insertAll, List.foldl_cons] at h ⊢
      rw [h, find?_insert, List.lookup_cons]
      by_cases hk : k = e.1
      · have hnone : es.lookup k = none := by
          rw [List.lookup_eq_none_iff]
          intro b hb
          have := hhead b hb
          simp [hk, this.ne]
        simp [hk, hk ▸ hnone]
      · have hbeq : (k == e.1) = false := by simpa using hk
        simp [hbeq, hk]
  ext1 k
  rw [hgen m.entries empty m.sorted k, find?_empty, Option.or_none, find?]

end OrderedMap

/-- A position in a list of entries: on an entry, with the entries passed before
it (nearest first) and those still to come, or off the list. -/
inductive Cursor (β : Type*)
  | invalid
  | at (before : List β) (entry : β) (after : List β)
  deriving DecidableEq

namespace Cursor

variable {β : Type*}

/-- The cursor is on an entry. -/
def valid : Cursor β → Bool
  | invalid => false
  | .at _ _ _ => true

/-- Step to the following entry. -/
def next : Cursor β → Cursor β
  | .at before e (a :: after) => .at (e :: before) a after
  | _ => invalid

/-- Step to the preceding entry. An invalid cursor stays invalid. -/
def prev : Cursor β → Cursor β
  | .at (b :: before) e after => .at before b (e :: after)
  | _ => invalid

/-- The entries met from the cursor by repeated `next`. -/
def forward : Cursor β → List β
  | invalid => []
  | .at _ e after => e :: after

/-- The entries met from the cursor by repeated `prev`. -/
def backward : Cursor β → List β
  | invalid => []
  | .at before e _ => e :: before

/-- The cursor on the first entry of `right`, the entries of `left` lying before it. -/
def between (left right : List β) : Cursor β :=
  match right with
  | [] => invalid
  | e :: after => .at left.reverse e after

/-- The entry that a cursor is on. -/
def entry? : Cursor β → Option β
  | invalid => none
  | .at _ e _ => some e

/-- Step to the following entry while the cursor is on one with a property: the number of
steps, and where they end. -/
def skipWhile (p : β → Bool) : Cursor β → ℕ × Cursor β
  | invalid => (0, invalid)
  | .at before e after => skipFrom p before e after
where
  /-- The steps from an entry. -/
  skipFrom (p : β → Bool) (before : List β) (e : β) : List β → ℕ × Cursor β
    | [] => if p e then (1, invalid) else (0, .at before e [])
    | a :: after =>
      if p e then
        let r := skipFrom p (e :: before) a after
        (r.1 + 1, r.2)
      else (0, .at before e (a :: after))

/-- The steps pass the entries with the property. -/
theorem skipWhile_between (p : β → Bool) (left right : List β) :
    (between left right).skipWhile p =
      ((right.takeWhile p).length, between (left ++ right.takeWhile p) (right.dropWhile p)) := by
  cases right with
  | nil => rfl
  | cons e after =>
    change skipWhile.skipFrom p left.reverse e after = _
    induction after generalizing left e with
    | nil =>
      by_cases he : p e = true
      · simp [skipWhile.skipFrom, he, between]
      · simp [skipWhile.skipFrom, he, between]
    | cons a after ih =>
      by_cases he : p e = true
      · have hrest := ih (left ++ [e]) a
        rw [List.reverse_append, List.reverse_singleton, List.singleton_append] at hrest
        simp only [skipWhile.skipFrom, he, if_true, hrest, List.takeWhile_cons_of_pos he,
          List.dropWhile_cons_of_pos he, List.length_cons, List.append_assoc, List.singleton_append]
      · simp [skipWhile.skipFrom, he, between]

/-- Moving on from a cursor that is on an entry. -/
theorem next_between (left : List β) (e : β) (right : List β) :
    (between left (e :: right)).next = between (left ++ [e]) right := by
  cases right with
  | nil => rfl
  | cons a right => simp [between, next]

/-- One step back from a cursor that is on an entry. -/
theorem entry?_prev_between (left : List β) {right : List β} (h : right ≠ []) :
    (between left right).prev.entry? = left.getLast? := by
  cases right with
  | nil => exact absurd rfl h
  | cons e right =>
    rw [← List.head?_reverse]
    unfold between
    cases left.reverse with
    | nil => rfl
    | cons b before => rfl

/-- Moving back drops the entry the cursor was on. -/
theorem backward_prev (c : Cursor β) : c.prev.backward = c.backward.tail := by
  rcases c with _ | ⟨_ | ⟨b, before⟩, e, after⟩ <;> rfl

@[simp] theorem forward_between (left right : List β) : (between left right).forward = right := by
  cases right <;> rfl

/-- From a cursor that is on an entry, one step back meets what lies before it. -/
theorem backward_prev_between {left right : List β} (h : right ≠ []) :
    (between left right).prev.backward = left.reverse := by
  cases right with
  | nil => exact absurd rfl h
  | cons e after =>
    rw [backward_prev]
    rfl

end Cursor

namespace OrderedMap

variable {κ α : Type*} [LinearOrder κ]

/-- The entries whose key is smaller than `k`. -/
def below (m : OrderedMap κ α) (k : κ) : List (κ × α) := m.entries.takeWhile (·.1 < k)

/-- The entries whose key is not smaller than `k`. -/
def above (m : OrderedMap κ α) (k : κ) : List (κ × α) := m.entries.dropWhile (·.1 < k)

/-- The cursor on the first key that is not smaller than `k`. -/
def seek (m : OrderedMap κ α) (k : κ) : Cursor (κ × α) := .between (m.below k) (m.above k)

/-- The cursor on the smallest key. -/
def seekToFirst (m : OrderedMap κ α) : Cursor (κ × α) := .between [] m.entries

/-- The cursor on the largest key. -/
def seekToLast (m : OrderedMap κ α) : Cursor (κ × α) :=
  match m.entries.reverse with
  | [] => .invalid
  | e :: before => .at before e []

theorem below_append_above (m : OrderedMap κ α) (k : κ) : m.below k ++ m.above k = m.entries :=
  List.takeWhile_append_dropWhile

private theorem takeWhile_eq_filter {l : List (κ × α)} (hl : l.Pairwise fun a b => a.1 < b.1)
    (k : κ) : l.takeWhile (·.1 < k) = l.filter (·.1 < k) := by
  induction l with
  | nil => rfl
  | cons e l ih =>
    obtain ⟨hhead, htail⟩ := List.pairwise_cons.mp hl
    by_cases he : e.1 < k
    · simp [he, ih htail]
    · have hnone : l.filter (·.1 < k) = [] := by
        rw [List.filter_eq_nil_iff]
        intro b hb
        simpa using (not_lt.mp he).trans (hhead b hb).le
      simp [he, hnone]

/-- As the keys increase, the entries below `k` are those with a smaller key. -/
theorem below_eq_filter (m : OrderedMap κ α) (k : κ) : m.below k = m.entries.filter (·.1 < k) :=
  takeWhile_eq_filter m.sorted k

theorem above_eq_filter (m : OrderedMap κ α) (k : κ) :
    m.above k = m.entries.filter (k ≤ ·.1) := by
  obtain ⟨l, hl⟩ := m
  simp only [above]
  induction l with
  | nil => rfl
  | cons e l ih =>
    obtain ⟨hhead, htail⟩ := List.pairwise_cons.mp hl
    by_cases he : e.1 < k
    · simp [he, ih htail]
    · have hall : l.filter (k ≤ ·.1) = l := by
        rw [List.filter_eq_self]
        intro b hb
        simpa using (not_lt.mp he).trans (hhead b hb).le
      rw [List.dropWhile_cons_of_neg (by simpa using he),
        List.filter_cons_of_pos (by simpa using not_lt.mp he), hall]

@[simp] theorem mem_above {m : OrderedMap κ α} {k : κ} {e : κ × α} :
    e ∈ m.above k ↔ e ∈ m.entries ∧ k ≤ e.1 := by
  simp [above_eq_filter, List.mem_filter]

@[simp] theorem mem_below {m : OrderedMap κ α} {k : κ} {e : κ × α} :
    e ∈ m.below k ↔ e ∈ m.entries ∧ e.1 < k := by
  simp [below_eq_filter, List.mem_filter]

/-- The entries whose key is greater than `k`. -/
def beyond (m : OrderedMap κ α) (k : κ) : OrderedMap κ α :=
  ⟨m.entries.filter (k < ·.1), m.sorted.filter _⟩

@[simp] theorem mem_beyond {m : OrderedMap κ α} {k : κ} {e : κ × α} :
    e ∈ (m.beyond k).entries ↔ e ∈ m.entries ∧ k < e.1 := by
  simp [beyond, List.mem_filter]

/-- Only a key that is there comes before the greater ones. -/
theorem above_tail (m : OrderedMap κ α) (k : κ) :
    (m.above k).tail = if k ∈ m then (m.beyond k).entries else (m.beyond k).entries.tail := by
  have hsplit : m.above k = (m.entries.filter (·.1 = k)) ++ (m.beyond k).entries := by
    rw [above_eq_filter]
    have hsorted := m.sorted
    simp only [beyond]
    generalize m.entries = l at hsorted
    induction l with
    | nil => rfl
    | cons e l ih =>
      obtain ⟨hhead, htail⟩ := List.pairwise_cons.mp hsorted
      rcases lt_trichotomy k e.1 with hlt | rfl | hgt
      · have hnone : l.filter (·.1 = k) = [] := by
          rw [List.filter_eq_nil_iff]
          intro b hb
          simpa using (hlt.trans (hhead b hb)).ne'
        simp [hlt, hlt.le, hlt.ne', hnone, ih htail]
      · simp [ih htail]
      · simp [hgt.not_ge, hgt.not_gt, hgt.ne, ih htail]
  rw [hsplit]
  cases hfilter : m.entries.filter (·.1 = k) with
  | nil =>
    have hnot : k ∉ m := by
      rw [mem_iff_entries]
      rintro ⟨e, he, rfl⟩
      exact absurd (List.filter_eq_nil_iff.mp hfilter e he) (by simp)
    rw [if_neg hnot, List.nil_append]
  | cons e es =>
    have he : e ∈ m.entries.filter (·.1 = k) := hfilter ▸ List.mem_cons_self
    have hes : es = [] := by
      have hsorted : (e :: es).Pairwise fun a b => a.1 < b.1 := hfilter ▸ m.sorted.filter _
      refine List.eq_nil_iff_forall_not_mem.mpr fun b hb => ?_
      have hb' : b ∈ m.entries.filter (·.1 = k) := hfilter ▸ List.mem_cons_of_mem e hb
      have hlt := (List.pairwise_cons.mp hsorted).1 b hb
      simp only [List.mem_filter, decide_eq_true_eq] at he hb'
      exact absurd hlt (by rw [he.2, hb'.2]; exact lt_irrefl k)
    have hmem : k ∈ m := by
      simp only [List.mem_filter, decide_eq_true_eq] at he
      exact mem_iff_entries.mpr ⟨e, he.1, he.2⟩
    rw [if_pos hmem, hes]
    rfl

@[simp] theorem forward_seek (m : OrderedMap κ α) (k : κ) : (m.seek k).forward = m.above k :=
  Cursor.forward_between _ _

@[simp] theorem forward_seekToFirst (m : OrderedMap κ α) : m.seekToFirst.forward = m.entries :=
  Cursor.forward_between _ _

@[simp] theorem backward_seekToLast (m : OrderedMap κ α) :
    m.seekToLast.backward = m.entries.reverse := by
  unfold seekToLast
  split
  · next h => simp [Cursor.backward, h]
  · next h => simp [Cursor.backward, h]

end OrderedMap

end Basis
