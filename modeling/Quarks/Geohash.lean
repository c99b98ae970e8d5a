import Quarks.Core.Increment
import Quarks.Basis.Traced

/-!
# Geohashes

A geohash names a cell of the world by characters that each cut the cell named by those before
it into 32. The cell next to it is found by tables, one for each direction and parity of the
length; at a border character the cell of the characters before moves first.
-/

namespace Quarks

open Basis

/-- The directions, in the order of the tables. -/
inductive Direction
  | north | east | south | west
  deriving DecidableEq

instance (p : Direction → Prop) [DecidablePred p] : Decidable (∀ direction, p direction) :=
  decidable_of_iff (p .north ∧ p .east ∧ p .south ∧ p .west)
    ⟨fun ⟨hnorth, heast, hsouth, hwest⟩ direction => by cases direction <;> assumption,
      fun h => ⟨h _, h _, h _, h _⟩⟩

/-- `even_neighbors`. -/
def evenNeighbors : Direction → Bytes
  | .north => ascii "p0r21436x8zb9dcf5h7kjnmqesgutwvy"
  | .east => ascii "bc01fg45238967deuvhjyznpkmstqrwx"
  | .south => ascii "14365h7k9dcfesgujnmqp0r2twvyx8zb"
  | .west => ascii "238967debc01fg45kmstqrwxuvhjyznp"

/-- `odd_neighbors`. -/
def oddNeighbors : Direction → Bytes
  | .north => ascii "bc01fg45238967deuvhjyznpkmstqrwx"
  | .east => ascii "p0r21436x8zb9dcf5h7kjnmqesgutwvy"
  | .south => ascii "238967debc01fg45kmstqrwxuvhjyznp"
  | .west => ascii "14365h7k9dcfesgujnmqp0r2twvyx8zb"

/-- `even_borders`. -/
def evenBorders : Direction → Bytes
  | .north => ascii "prxz"
  | .east => ascii "bcfguvyz"
  | .south => ascii "028b"
  | .west => ascii "0145hjnp"

/-- `odd_borders`. -/
def oddBorders : Direction → Bytes
  | .north => ascii "bcfguvyz"
  | .east => ascii "prxz"
  | .south => ascii "0145hjnp"
  | .west => ascii "028b"

/-- The neighbours for a hash of a length. -/
def neighborTable (length : ℕ) (direction : Direction) : Bytes :=
  if length % 2 = 1 then oddNeighbors direction else evenNeighbors direction

/-- The border characters for a hash of a length. -/
def borderTable (length : ℕ) (direction : Direction) : Bytes :=
  if length % 2 = 1 then oddBorders direction else evenBorders direction

/-- `index_for_char`. -/
def indexForChar (c : UInt8) (string : Bytes) : ℤ :=
  match string.idxOf? c with
  | some i => i
  | none => -1

/-- What happens in memory where neighbours are looked for: a call of `get_neighbor`, and a write
to the buffer that holds the hash. -/
inductive GeoEvent
  | neighbor (hash : Bytes)
  | write (index : ℤ)

/-- `get_neighbor`. The last character of an empty hash is read in front of it, and a character
that no table has would be looked up at index -1. -/
def getNeighbor (hash : Bytes) (direction : Direction) : Traced GeoEvent Bytes := do
  .emit (.neighbor hash)
  if hempty : hash = [] then .goWrong
  else
    let lastChar := hash.getLast hempty
    let base ←
      if indexForChar lastChar (borderTable hash.length direction) ≠ -1
      then getNeighbor hash.dropLast direction
      else pure hash.dropLast
    let neighborIndex := indexForChar lastChar (neighborTable hash.length direction)
    if neighborIndex < 0 then .goWrong
    else pure (base ++ [charMap.getD neighborIndex.toNat 0])
termination_by hash.length
decreasing_by
  have hpos := List.length_pos_of_ne_nil hempty
  rw [List.length_dropLast]
  omega

/-- `geohash_neighbors`: N, NE, E, SE, S, SW, W, NW. -/
def geohashNeighbors (hash : Bytes) : Traced GeoEvent (List Bytes) := do
  let n ← getNeighbor hash .north
  let ne ← getNeighbor n .east
  let e ← getNeighbor hash .east
  let se ← getNeighbor e .south
  let s ← getNeighbor hash .south
  let sw ← getNeighbor s .west
  let w ← getNeighbor hash .west
  let nw ← getNeighbor w .north
  return [n, ne, e, se, s, sw, w, nw]

/-! ## Encoding -/

/-- What is encoded with whole characters left: the bits of the next character read so far are
those of a number in range. -/
theorem geohashLoop_spec {bits count hashChar n : ℕ} (hcount : count ≤ 4)
    (hbits : bits + count = 5 * n) (hhash : hashChar < 2 ^ count)
    (first second : Double × Interval) :
    (geohashLoop bits count hashChar first second).length = n ∧
      ∀ c ∈ geohashLoop bits count hashChar first second, c ∈ charMap := by
  induction bits generalizing count hashChar n first second with
  | zero => exact ⟨by simp [geohashLoop]; omega, fun c hc => by cases hc⟩
  | succ bits ih =>
    obtain ⟨coord, iv⟩ := first
    have hnext : 2 * hashChar + (if (iv.halve coord).1 then 1 else 0) < 2 ^ (count + 1) := by
      rw [Nat.pow_succ]
      split <;> omega
    unfold geohashLoop
    by_cases hlast : count = 4
    · subst hlast
      simp only [if_true]
      obtain ⟨hlength, hchars⟩ := @ih 0 0 (n - 1) (by omega) (by omega) (by decide) second
        (coord, (iv.halve coord).2)
      have hlt : 2 * hashChar + (if (iv.halve coord).1 then 1 else 0) < charMap.length := hnext
      refine ⟨by rw [List.length_cons, hlength]; omega, List.forall_mem_cons.mpr ⟨?_, hchars⟩⟩
      rw [List.getD_eq_getElem?_getD, List.getElem?_eq_getElem hlt, Option.getD_some]
      exact List.getElem_mem hlt
    · simp only [if_neg hlast]
      exact ih (by omega) (by omega) hnext second (coord, (iv.halve coord).2)

/-- A hash has as many characters as asked for, all of the map. -/
theorem geohashEncode_spec (lat lng : Double) (precision : ℕ) :
    (geohashEncode lat lng precision).length = precision ∧
      ∀ c ∈ geohashEncode lat lng precision, c ∈ charMap :=
  geohashLoop_spec (by omega) (by omega) (by omega) _ _

/-! ## Moving a character -/

/-- Whether the character lies at the border of the cell that it cuts, at its place in a hash. -/
def OnBorder (direction : Direction) (place : ℕ) (c : UInt8) : Prop :=
  c ∈ borderTable place direction

instance (direction : Direction) (place : ℕ) (c : UInt8) :
    Decidable (OnBorder direction place c) :=
  inferInstanceAs (Decidable (c ∈ borderTable place direction))

/-- North and south are across from east and west. -/
def Direction.across : Direction → Direction → Bool
  | .north, d | .south, d => d = .east || d = .west
  | .east, d | .west, d => d = .north || d = .south

theorem indexForChar_eq_neg_one {c : UInt8} {string : Bytes} :
    indexForChar c string = -1 ↔ c ∉ string := by
  unfold indexForChar
  cases hi : string.idxOf? c with
  | none => exact iff_of_true rfl (List.idxOf?_eq_none_iff.mp hi)
  | some i =>
    refine iff_of_false (by simp only; omega) ?_
    rw [not_not]
    by_contra hc
    rw [List.idxOf?_eq_none_iff.mpr hc] at hi
    cases hi

/-- The character that another one becomes in a neighbour. -/
def moved (direction : Direction) (place : ℕ) (c : UInt8) : UInt8 :=
  charMap.getD (indexForChar c (neighborTable place direction)).toNat 0

theorem tables_of_odd {place : ℕ} (h : place % 2 = 1) (direction : Direction) :
    neighborTable place direction = oddNeighbors direction ∧
      borderTable place direction = oddBorders direction :=
  ⟨if_pos h, if_pos h⟩

theorem tables_of_even {place : ℕ} (h : ¬place % 2 = 1) (direction : Direction) :
    neighborTable place direction = evenNeighbors direction ∧
      borderTable place direction = evenBorders direction :=
  ⟨if_neg h, if_neg h⟩

/-- A character of the map is in each table of neighbours, and moving it keeps whether it lies at
a border across. -/
theorem moved_spec (direction : Direction) (place : ℕ) : ∀ c ∈ charMap,
    ¬indexForChar c (neighborTable place direction) < 0 ∧ moved direction place c ∈ charMap ∧
      ∀ direction', direction.across direction' = true →
        (OnBorder direction' place (moved direction place c) ↔ OnBorder direction' place c) := by
  unfold moved OnBorder
  by_cases h : place % 2 = 1
  · simp only [tables_of_odd h]
    revert direction
    decide +kernel
  · simp only [tables_of_even h]
    revert direction
    decide +kernel

/-! ## Neighbours -/

/-- The call has a hash with a last character, and the write lies in the buffer of 128
characters. -/
def GeoEvent.InBounds : GeoEvent → Prop
  | .neighbor hash => hash ≠ []
  | .write index => 0 ≤ index ∧ index < 128

instance : DecidablePred GeoEvent.InBounds := fun e =>
  match e with
  | .neighbor hash => inferInstanceAs (Decidable (hash ≠ []))
  | .write index => inferInstanceAs (Decidable (0 ≤ index ∧ index < 128))

/-- The cell lies at the edge of the world: each character lies at the border of the cell before. -/
def AtEdge (direction : Direction) (hash : Bytes) : Prop :=
  ∀ p ∈ hash.zipIdx 1, OnBorder direction p.2 p.1

instance (direction : Direction) (hash : Bytes) : Decidable (AtEdge direction hash) :=
  inferInstanceAs (Decidable (∀ p ∈ hash.zipIdx 1, OnBorder direction p.2 p.1))

/-- The second hash is one of the same length for a cell that lies in the given direction, so
that the edges across stay as near. -/
structure MovesTo (direction : Direction) (hash hash' : Bytes) : Prop where
  length_eq : hash'.length = hash.length
  chars : ∀ c ∈ hash', c ∈ charMap
  keeps : ∀ direction', direction.across direction' = true →
    (AtEdge direction' hash' ↔ AtEdge direction' hash)

section

variable {direction : Direction} {base : Bytes} {c : UInt8}

theorem atEdge_append (base : Bytes) (c : UInt8) :
    AtEdge direction (base ++ [c]) ↔
      AtEdge direction base ∧ OnBorder direction (base.length + 1) c := by
  simp only [AtEdge, List.zipIdx_append, List.forall_mem_append, List.zipIdx_singleton,
    List.forall_mem_singleton, Nat.add_comm 1]

theorem getNeighbor_nil : ¬(getNeighbor [] direction).All GeoEvent.InBounds := by
  rw [getNeighbor, Traced.all_emit_bind]
  exact fun h => h.1 rfl

/-- Looking for a neighbour goes on with the characters before if the last one is a border
character. -/
theorem getNeighbor_append (base : Bytes) (c : UInt8) :
    getNeighbor (base ++ [c]) direction = (do
      .emit (.neighbor (base ++ [c]))
      let base' ←
        if OnBorder direction (base.length + 1) c then getNeighbor base direction
        else pure base
      if indexForChar c (neighborTable (base.length + 1) direction) < 0 then .goWrong
      else pure (base' ++ [moved direction (base.length + 1) c])) := by
  rw [getNeighbor]
  simp [indexForChar_eq_neg_one, OnBorder, moved]

/-- A neighbour is found within bounds unless the cell lies at the edge of the world. -/
theorem getNeighbor_spec (direction : Direction) {hash : Bytes}
    (hchars : ∀ c ∈ hash, c ∈ charMap) :
    ((getNeighbor hash direction).All GeoEvent.InBounds ↔ ¬AtEdge direction hash) ∧
      (¬AtEdge direction hash → ∃ hash', (getNeighbor hash direction).result = some hash' ∧
        MovesTo direction hash hash') := by
  induction hash using List.reverseRecOn with
  | nil =>
    have hedge : AtEdge direction [] := fun p hp => by cases hp
    exact ⟨iff_of_false getNeighbor_nil (not_not.mpr hedge), fun h => absurd hedge h⟩
  | append_singleton base c ih =>
    obtain ⟨hbase, hc⟩ := List.forall_mem_append.mp hchars
    obtain ⟨hindex, hmoved, hacross⟩ := moved_spec direction (base.length + 1) c (by simpa using hc)
    obtain ⟨ihall, ihresult⟩ := ih hbase
    have hmoves : ∀ base', MovesTo direction base base' →
        MovesTo direction (base ++ [c]) (base' ++ [moved direction (base.length + 1) c]) := by
      rintro base' ⟨hlength, hchars', hkeeps⟩
      refine ⟨by simp [hlength], ?_, fun direction' hd => ?_⟩
      · exact List.forall_mem_append.mpr ⟨hchars', by simpa using hmoved⟩
      · rw [atEdge_append, atEdge_append, hlength, hkeeps direction' hd, hacross direction' hd]
    have hfirst : (GeoEvent.neighbor (base ++ [c])).InBounds := by simp [GeoEvent.InBounds]
    rw [getNeighbor_append, atEdge_append, Traced.all_emit_bind, Traced.result_emit_bind]
    by_cases hborder : OnBorder direction (base.length + 1) c
    · simp only [hborder, if_true, hindex, if_false, Traced.all_bind, Traced.all_pure, and_true,
        hfirst, true_and, implies_true, Traced.result_bind, Traced.result_pure]
      refine ⟨ihall, fun hedge => ?_⟩
      obtain ⟨base', hresult, hbase'⟩ := ihresult hedge
      exact ⟨_, by rw [hresult, Option.bind_some], hmoves base' hbase'⟩
    · simp only [hborder, if_false, hindex, Traced.all_bind, Traced.all_pure, and_true,
        hfirst, implies_true, and_false, not_false_eq_true, Traced.result_bind,
        Traced.result_pure, Option.bind_some]
      exact ⟨trivial, fun _ => ⟨_, rfl, hmoves base ⟨rfl, hbase, fun _ _ => Iff.rfl⟩⟩⟩

/-- Two steps across each other stay within bounds unless the cell lies at one of both edges. -/
theorem diagonal_all {α : Type} {direction direction' : Direction} {hash : Bytes}
    {f : Bytes → Bytes → Traced GeoEvent α} {rest : Prop} (hchars : ∀ c ∈ hash, c ∈ charMap)
    (hacross : direction.across direction' = true)
    (hrest : ∀ a b, (f a b).All GeoEvent.InBounds ↔ rest) :
    (do let a ← getNeighbor hash direction
        let b ← getNeighbor a direction'
        f a b).All GeoEvent.InBounds ↔
      ¬AtEdge direction hash ∧ ¬AtEdge direction' hash ∧ rest := by
  obtain ⟨hfirst, hmoves⟩ := getNeighbor_spec direction hchars
  rw [Traced.all_bind, hfirst]
  refine and_congr_right fun hedge => ?_
  obtain ⟨a, hresult, -, hachars, hkeeps⟩ := hmoves hedge
  obtain ⟨hsecond, hmoves'⟩ := getNeighbor_spec direction' hachars
  simp only [hresult, Option.some.injEq, forall_eq', Traced.all_bind, hsecond,
    hkeeps direction' hacross]
  refine and_congr_right fun hedge' => ?_
  obtain ⟨b, hresult', -⟩ := hmoves' (mt (hkeeps direction' hacross).mp hedge')
  simp only [hresult', Option.some.injEq, forall_eq', hrest]

/-- The eight neighbours are found within bounds unless the cell lies at an edge of the world. -/
theorem geohashNeighbors_all {hash : Bytes} (hchars : ∀ c ∈ hash, c ∈ charMap) :
    (geohashNeighbors hash).All GeoEvent.InBounds ↔
      ∀ direction, ¬AtEdge direction hash := by
  have hall : (geohashNeighbors hash).All GeoEvent.InBounds ↔
      ¬AtEdge .north hash ∧ ¬AtEdge .east hash ∧ ¬AtEdge .east hash ∧ ¬AtEdge .south hash ∧
        ¬AtEdge .south hash ∧ ¬AtEdge .west hash ∧ ¬AtEdge .west hash ∧ ¬AtEdge .north hash ∧
          True := by
    refine diagonal_all hchars rfl fun n ne => ?_
    refine diagonal_all hchars rfl fun e se => ?_
    refine diagonal_all hchars rfl fun s sw => ?_
    exact diagonal_all hchars rfl fun w nw => iff_of_true (Traced.all_pure _) trivial
  rw [hall]
  constructor
  · rintro ⟨hnorth, heast, -, hsouth, -, hwest, -⟩ direction
    cases direction with
    | north => exact hnorth
    | east => exact heast
    | south => exact hsouth
    | west => exact hwest
  · intro h
    exact ⟨h _, h _, h _, h _, h _, h _, h _, h _, trivial⟩

end

end Quarks
