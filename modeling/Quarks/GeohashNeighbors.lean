import Quarks.GeohashRoundTrip
import Mathlib.Tactic.LinearCombination

/-!
# Cells next to each other

The tables of `get_neighbor` move a cell by one row or column: a character at the border of the
cell that it cuts goes to the other end while the characters before move, and any other character
moves by itself.
-/

namespace Quarks

open Basis

/-- How a direction changes the row and the column. -/
def Direction.dRow : Direction → ℤ
  | .north => 1
  | .south => -1
  | _ => 0

def Direction.dColumn : Direction → ℤ
  | .east => 1
  | .west => -1
  | _ => 0

/-- The bits of a character at a place in a hash that belong to the row, and those that belong to
the column. -/
def rowBits (place : ℕ) (c : UInt8) : List Bool :=
  if place % 2 = 1 then (turns (charBits c)).2 else (turns (charBits c)).1

def columnBits (place : ℕ) (c : UInt8) : List Bool :=
  if place % 2 = 1 then (turns (charBits c)).1 else (turns (charBits c)).2

section

variable {direction : Direction} {hash base : Bytes} {c : UInt8}

theorem length_rowBits (place : ℕ) (c : UInt8) :
    (rowBits place c).length = if place % 2 = 1 then 2 else 3 := by
  obtain ⟨heven, hodd⟩ := length_turns (charBits c)
  rw [length_charBits] at heven hodd
  unfold rowBits
  split
  · exact hodd
  · exact heven

theorem length_columnBits (place : ℕ) (c : UInt8) :
    (columnBits place c).length = if place % 2 = 1 then 3 else 2 := by
  obtain ⟨heven, hodd⟩ := length_turns (charBits c)
  rw [length_charBits] at heven hodd
  unfold columnBits
  split
  · exact heven
  · exact hodd

theorem turns_hashBits_append (base : Bytes) (c : UInt8) :
    turns (hashBits (base ++ [c])) =
      ((turns (hashBits base)).1 ++ columnBits (base.length + 1) c,
        (turns (hashBits base)).2 ++ rowBits (base.length + 1) c) := by
  have happend : hashBits (base ++ [c]) = hashBits base ++ charBits c := by
    rw [hashBits, List.flatMap_append, List.flatMap_singleton, ← hashBits]
  rw [happend, turns_append, length_hashBits, rowBits, columnBits]
  by_cases hplace : (base.length + 1) % 2 = 1
  · rw [if_pos hplace, if_pos hplace, if_pos (by omega)]
  · rw [if_neg hplace, if_neg hplace, if_neg (by omega)]

theorem row_append (base : Bytes) (c : UInt8) :
    row (base ++ [c]) =
      row base * 2 ^ (rowBits (base.length + 1) c).length +
        bitsIndex (rowBits (base.length + 1) c) := by
  rw [row, turns_hashBits_append, bitsIndex_append, ← row]

theorem column_append (base : Bytes) (c : UInt8) :
    column (base ++ [c]) = column base * 2 ^ (columnBits (base.length + 1) c).length +
      bitsIndex (columnBits (base.length + 1) c) := by
  rw [column, turns_hashBits_append, bitsIndex_append, ← column]

/-! ## The tables -/

/-- What a table does with a character that lies at the border is made up for by moving the
characters before it. -/
theorem moved_bits (direction : Direction) (place : ℕ) : ∀ c ∈ charMap,
    (bitsIndex (rowBits place (moved direction place c)) : ℤ) +
        (if OnBorder direction place c then direction.dRow * 2 ^ (rowBits place c).length else 0) =
      bitsIndex (rowBits place c) + direction.dRow ∧
    (bitsIndex (columnBits place (moved direction place c)) : ℤ) +
        (if OnBorder direction place c then direction.dColumn * 2 ^ (columnBits place c).length
          else 0) =
      bitsIndex (columnBits place c) + direction.dColumn := by
  unfold rowBits columnBits moved OnBorder
  by_cases h : place % 2 = 1
  · simp only [if_pos h, tables_of_odd h]
    revert direction
    decide +kernel
  · simp only [if_neg h, tables_of_even h]
    revert direction
    decide +kernel

/-- A character lies at a border if all its bits in that direction say so. -/
theorem onBorder_iff_bits (place : ℕ) : ∀ c ∈ charMap,
    (OnBorder .north place c ↔ ∀ b ∈ rowBits place c, b = true) ∧
    (OnBorder .east place c ↔ ∀ b ∈ columnBits place c, b = true) ∧
    (OnBorder .south place c ↔ ∀ b ∈ rowBits place c, b = false) ∧
    (OnBorder .west place c ↔ ∀ b ∈ columnBits place c, b = false) := by
  unfold rowBits columnBits OnBorder
  by_cases h : place % 2 = 1
  · simp only [if_pos h, tables_of_odd h]
    decide +kernel
  · simp only [if_neg h, tables_of_even h]
    decide +kernel

/-! ## Moving -/

/-- The neighbour that is found lies one row or one column further. -/
theorem getNeighbor_moves (hchars : ∀ c ∈ hash, c ∈ charMap) {hash' : Bytes}
    (h : (getNeighbor hash direction).result = some hash') :
    hash'.length = hash.length ∧ (row hash' : ℤ) = row hash + direction.dRow ∧
      (column hash' : ℤ) = column hash + direction.dColumn := by
  induction hash using List.reverseRecOn generalizing hash' with
  | nil =>
    rw [getNeighbor, Traced.result_emit_bind] at h
    cases h
  | append_singleton base c ih =>
    obtain ⟨hbase, hc⟩ := List.forall_mem_append.mp hchars
    have hc : c ∈ charMap := by simpa using hc
    obtain ⟨hindex, -, -⟩ := moved_spec direction (base.length + 1) c hc
    obtain ⟨hrow, hcolumn⟩ := moved_bits direction (base.length + 1) c hc
    rw [getNeighbor_append, Traced.result_emit_bind] at h
    have hrowSize : (rowBits (base.length + 1) (moved direction (base.length + 1) c)).length =
        (rowBits (base.length + 1) c).length := by
      rw [length_rowBits, length_rowBits]
    have hcolumnSize :
        (columnBits (base.length + 1) (moved direction (base.length + 1) c)).length =
          (columnBits (base.length + 1) c).length := by
      rw [length_columnBits, length_columnBits]
    by_cases hborder : OnBorder direction (base.length + 1) c
    · rw [if_pos hborder] at hrow hcolumn
      simp only [hborder, if_true, hindex, if_false, Traced.result_bind, Traced.result_pure] at h
      obtain ⟨base', hresult, hlast⟩ := Option.bind_eq_some_iff.mp h
      obtain ⟨hlength, hrowBase, hcolumnBase⟩ := ih hbase hresult
      obtain rfl : base' ++ [moved direction (base.length + 1) c] = hash' := Option.some.inj hlast
      refine ⟨by simp [hlength], ?_, ?_⟩
      · rw [row_append, row_append, hlength, hrowSize]
        push_cast
        rw [hrowBase]
        linear_combination hrow
      · rw [column_append, column_append, hlength, hcolumnSize]
        push_cast
        rw [hcolumnBase]
        linear_combination hcolumn
    · rw [if_neg hborder] at hrow hcolumn
      simp only [hborder, if_false, hindex, Traced.result_bind, Traced.result_pure,
        Option.bind_some] at h
      obtain rfl : base ++ [moved direction (base.length + 1) c] = hash' := Option.some.inj h
      refine ⟨by simp, ?_, ?_⟩
      · rw [row_append, row_append, hrowSize]
        push_cast
        linear_combination hrow
      · rw [column_append, column_append, hcolumnSize]
        push_cast
        linear_combination hcolumn

/-- A cell lies at an edge of the world if all its bits in that direction say so. -/
theorem atEdge_iff_bits (hchars : ∀ c ∈ hash, c ∈ charMap) :
    (AtEdge .north hash ↔ ∀ b ∈ (turns (hashBits hash)).2, b = true) ∧
    (AtEdge .east hash ↔ ∀ b ∈ (turns (hashBits hash)).1, b = true) ∧
    (AtEdge .south hash ↔ ∀ b ∈ (turns (hashBits hash)).2, b = false) ∧
    (AtEdge .west hash ↔ ∀ b ∈ (turns (hashBits hash)).1, b = false) := by
  induction hash using List.reverseRecOn with
  | nil => simp [AtEdge, hashBits, turns]
  | append_singleton base c ih =>
    obtain ⟨hbase, hc⟩ := List.forall_mem_append.mp hchars
    obtain ⟨hnorth, heast, hsouth, hwest⟩ := ih hbase
    obtain ⟨hn, he, hs, hw⟩ := onBorder_iff_bits (base.length + 1) c (by simpa using hc)
    simp only [atEdge_append, turns_hashBits_append, List.forall_mem_append, hnorth, heast, hsouth,
      hwest, hn, he, hs, hw, and_self]

/-- A cell lies at an edge of the world if and only if its end in that direction is the end of the
world. -/
theorem atEdge_iff_end (hhash : hash ≠ []) (hchars : ∀ c ∈ hash, c ∈ charMap) :
    (AtEdge .north hash ↔ (geohashDecode (some hash)).north = 90) ∧
    (AtEdge .east hash ↔ (geohashDecode (some hash)).east = 180) ∧
    (AtEdge .south hash ↔ (geohashDecode (some hash)).south = -90) ∧
    (AtEdge .west hash ↔ (geohashDecode (some hash)).west = -180) := by
  obtain ⟨hnorth, heast, hsouth, hwest⟩ := atEdge_iff_bits hchars
  obtain ⟨hlow, hhigh, hleft, hright⟩ := geohashDecode_ends hhash
  rw [hnorth, heast, hsouth, hwest, hlow, hhigh, hleft, hright]
  exact ⟨(Span.high_cut_eq_iff worldLat_proper _).symm,
    (Span.high_cut_eq_iff worldLng_proper _).symm,
    (Span.low_cut_eq_iff worldLat_proper _).symm, (Span.low_cut_eq_iff worldLng_proper _).symm⟩

end

/-! ## The eight neighbours -/

/-- A cell of the same size some rows and columns further. -/
def GeoCoord.shift (cell : GeoCoord) (rows columns : ℤ) : GeoCoord :=
  let up := (cell.north - cell.south) * rows
  let right := (cell.east - cell.west) * columns
  { latitude := cell.latitude + up
    longitude := cell.longitude + right
    north := cell.north + up
    east := cell.east + right
    south := cell.south + up
    west := cell.west + right
    dimension := cell.dimension }

theorem cellAt_shift (length : ℕ) (row column rows columns : ℤ) :
    (cellAt length row column).shift rows columns =
      cellAt length (row + rows) (column + columns) := by
  simp only [GeoCoord.shift, cellAt, GeoCoord.mk.injEq, and_true]
  push_cast
  refine ⟨?_, ?_, ?_, ?_, ?_, ?_⟩ <;> ring

/-- The hashes, all of the same length, name cells at the given distances from a cell. -/
def LieAround (hash : Bytes) (hashes : List Bytes) (distances : List (ℤ × ℤ)) : Prop :=
  List.Forall₂ (fun hash' d => hash'.length = hash.length ∧ (∀ c ∈ hash', c ∈ charMap) ∧
    (row hash' : ℤ) = row hash + d.1 ∧ (column hash' : ℤ) = column hash + d.2) hashes distances

/-- The rows and columns from a cell to its neighbours: N, NE, E, SE, S, SW, W, NW. -/
def compass : List (ℤ × ℤ) :=
  [(1, 0), (1, 1), (0, 1), (-1, 1), (-1, 0), (-1, -1), (0, -1), (1, -1)]

section

variable {direction : Direction} {hash : Bytes}

/-- One step from a cell that does not lie at the edge. -/
theorem getNeighbor_step (hchars : ∀ c ∈ hash, c ∈ charMap) (hedge : ¬AtEdge direction hash) :
    ∃ hash', (getNeighbor hash direction).result = some hash' ∧ MovesTo direction hash hash' ∧
      (row hash' : ℤ) = row hash + direction.dRow ∧
      (column hash' : ℤ) = column hash + direction.dColumn := by
  obtain ⟨hash', hresult, hmoves⟩ := (getNeighbor_spec direction hchars).2 hedge
  obtain ⟨-, hrow, hcolumn⟩ := getNeighbor_moves hchars hresult
  exact ⟨hash', hresult, hmoves, hrow, hcolumn⟩

/-- Two steps across each other: the first goes to a cell that does not lie at the edge across. -/
theorem getNeighbor_two_steps (direction direction' : Direction) (hchars : ∀ c ∈ hash, c ∈ charMap)
    (hacross : direction.across direction' = true) (hedge : ¬AtEdge direction hash)
    (hedge' : ¬AtEdge direction' hash) :
    ∃ a b, (getNeighbor hash direction).result = some a ∧
      (getNeighbor a direction').result = some b ∧
      (a.length = hash.length ∧ (∀ c ∈ a, c ∈ charMap) ∧
        (row a : ℤ) = row hash + direction.dRow ∧
        (column a : ℤ) = column hash + direction.dColumn) ∧
      (b.length = hash.length ∧ (∀ c ∈ b, c ∈ charMap) ∧
        (row b : ℤ) = row hash + (direction.dRow + direction'.dRow) ∧
        (column b : ℤ) = column hash + (direction.dColumn + direction'.dColumn)) := by
  obtain ⟨a, ha, hmoves, hrow, hcolumn⟩ := getNeighbor_step hchars hedge
  have hedgeA : ¬AtEdge direction' a := mt (hmoves.keeps direction' hacross).mp hedge'
  obtain ⟨b, hb, hmoves', hrow', hcolumn'⟩ := getNeighbor_step hmoves.chars hedgeA
  exact ⟨a, b, ha, hb, ⟨hmoves.length_eq, hmoves.chars, hrow, hcolumn⟩,
    hmoves'.length_eq.trans hmoves.length_eq, hmoves'.chars, by rw [hrow', hrow]; ring,
    by rw [hcolumn', hcolumn]; ring⟩

/-- The eight neighbours of a cell that does not lie at an edge lie around it. -/
theorem geohashNeighbors_lieAround (hchars : ∀ c ∈ hash, c ∈ charMap)
    (hedges : ∀ direction, ¬AtEdge direction hash) :
    ∃ hashes, (geohashNeighbors hash).result = some hashes ∧ LieAround hash hashes compass := by
  obtain ⟨n, ne, hn, hne, hnorth, hnortheast⟩ := getNeighbor_two_steps .north .east
    hchars rfl (hedges _) (hedges _)
  obtain ⟨e, se, he, hse, heast, hsoutheast⟩ := getNeighbor_two_steps .east .south
    hchars rfl (hedges _) (hedges _)
  obtain ⟨s, sw, hs, hsw, hsouth, hsouthwest⟩ := getNeighbor_two_steps .south .west
    hchars rfl (hedges _) (hedges _)
  obtain ⟨w, nw, hw, hnw, hwest, hnorthwest⟩ := getNeighbor_two_steps .west .north
    hchars rfl (hedges _) (hedges _)
  refine ⟨[n, ne, e, se, s, sw, w, nw], ?_, ?_⟩
  · simp only [geohashNeighbors, Traced.result_bind, hn, hne, he, hse, hs, hsw, hw, hnw,
      Option.bind_some, Traced.result_pure]
  · exact .cons hnorth (.cons hnortheast (.cons heast (.cons hsoutheast (.cons hsouth
      (.cons hsouthwest (.cons hwest (.cons hnorthwest .nil)))))))

/-- A hash in another row and column of the same size. -/
theorem geohashDecode_shift {hash' : Bytes} {rows columns : ℤ} (hhash : hash ≠ [])
    (hlength : hash'.length = hash.length) (hrow : (row hash' : ℤ) = row hash + rows)
    (hcolumn : (column hash' : ℤ) = column hash + columns) :
    geohashDecode (some hash') = (geohashDecode (some hash)).shift rows columns := by
  have hhash' : hash' ≠ [] := by
    rw [← List.length_pos_iff, hlength, List.length_pos_iff]
    exact hhash
  rw [geohashDecode_eq hhash, geohashDecode_eq hhash', cellAt_shift, hlength, hrow, hcolumn]

/-- The cells of the hashes are those at the distances. -/
theorem LieAround.map_decode {hashes : List Bytes} {distances : List (ℤ × ℤ)} (hhash : hash ≠ [])
    (h : LieAround hash hashes distances) :
    hashes.map (fun hash' => (hash'.length, geohashDecode (some hash'))) =
      distances.map fun d => (hash.length, (geohashDecode (some hash)).shift d.1 d.2) := by
  induction h with
  | nil => rfl
  | cons hfirst _ ih =>
    obtain ⟨hlength, -, hrow, hcolumn⟩ := hfirst
    rw [List.map_cons, List.map_cons, ih, hlength, geohashDecode_shift hhash hlength hrow hcolumn]

end

end Quarks
