import Quarks.Geohash
import Quarks.Basis.Bisection
import Quarks.Json.Decimals

/-!
# The cells of geohashes

A geohash of some length stands for a cell of the world. Encoding a place gives the hash of the
cell around it, and decoding a hash gives the ends and the centre of its cell.
-/

namespace Quarks

open Basis

/-! ## The code -/

/-- `geohash_encode`; `none` is the null pointer. A precision that is not provided for is taken
as six. -/
def geohashEncodeAt (lat lng : Double) (precision : ℤ) : Option Bytes :=
  let precision := if precision < 1 ∨ 12 < precision then 6 else precision
  if lat.value ≤ 90 ∧ -90 ≤ lat.value ∧ lng.value ≤ 180 ∧ -180 ≤ lng.value then
    some (geohashEncode lat lng precision.toNat)
  else none

/-- `GeoBoxDimension`. -/
structure GeoBoxDimension where
  height : ℚ
  width : ℚ

/-- `GeoCoord`. -/
structure GeoCoord where
  latitude : ℚ
  longitude : ℚ
  north : ℚ
  east : ℚ
  south : ℚ
  west : ℚ
  dimension : GeoBoxDimension

/-- What `geohash_decode` looks at for the bits of a character: `index_for_char` as an
`unsigned int`, which is never below zero, shifted to the left. -/
def charBits (c : UInt8) : List Bool :=
  [0, 1, 2, 3, 4].map fun j => (BitVec.ofInt 32 (indexForChar c charMap) <<< j) &&& 16#32 != 0#32

/-- The intervals of `geohash_decode`, and whose turn it is. -/
structure Decoding where
  lngInterval : Span ℚ
  latInterval : Span ℚ
  isEven : Bool

/-- `interval->low += delta` or `interval->high -= delta`. -/
def narrow (interval : Span ℚ) (bit : Bool) : Span ℚ :=
  let delta := (interval.high - interval.low) / 2
  if bit then ⟨interval.low + delta, interval.high⟩ else ⟨interval.low, interval.high - delta⟩

/-- One bit of `geohash_decode`. -/
def decodeBit (s : Decoding) (bit : Bool) : Decoding :=
  if s.isEven then { s with lngInterval := narrow s.lngInterval bit, isEven := false }
  else { s with latInterval := narrow s.latInterval bit, isEven := true }

/-- The world, from south to north and from west to east. -/
def worldLat : Span ℚ := ⟨-90, 90⟩

def worldLng : Span ℚ := ⟨-180, 180⟩

/-- The loops of `geohash_decode`. -/
def decodeChars (hash : Bytes) : Decoding :=
  hash.foldl (fun s c => (charBits c).foldl decodeBit s) ⟨worldLng, worldLat, true⟩

/-- `geohash_decode`. For a hash that can be encoded all ends are exact in a double. -/
def geohashDecode (hash : Option Bytes) : GeoCoord :=
  match hash with
  | none | some [] => ⟨0, 0, 0, 0, 0, 0, ⟨0, 0⟩⟩
  | some hash =>
    let s := decodeChars hash
    { latitude := s.latInterval.high - (s.latInterval.high - s.latInterval.low) / 2
      longitude := s.lngInterval.high - (s.lngInterval.high - s.lngInterval.low) / 2
      north := s.latInterval.high
      east := s.lngInterval.high
      south := s.latInterval.low
      west := s.lngInterval.low
      dimension := ⟨0, 0⟩ }

/-- `geohash_dimensions_for_precision`. -/
def geohashDimensionsForPrecision (precision : ℤ) : GeoBoxDimension :=
  if 0 < precision then
    let latTimesToCut := precision * 5 / 2
    let lngTimesToCut := precision * 5 / 2 + if precision % 2 ≠ 0 then 1 else 0
    ⟨(· / 2)^[latTimesToCut.toNat] 180, (· / 2)^[lngTimesToCut.toNat] 360⟩
  else ⟨0, 0⟩

example : (geohashDecode (some (ascii "s"))).north = 45 ∧
    (geohashDecode (some (ascii "s"))).east = 45 := by decide +kernel

/-! ## The bits of a hash -/

/-- The bits of all characters of a hash. -/
def hashBits (hash : Bytes) : List Bool := hash.flatMap charBits

theorem length_charBits (c : UInt8) : (charBits c).length = 5 := rfl

theorem length_hashBits (hash : Bytes) : (hashBits hash).length = 5 * hash.length := by
  induction hash with
  | nil => rfl
  | cons c hash ih =>
    rw [hashBits, List.flatMap_cons, List.length_append, ← hashBits, ih, length_charBits,
      List.length_cons]
    omega

/-- The bits of a character of the map are those of its place in the map. -/
theorem bitsIndex_charBits : ∀ n < 32, bitsIndex (charBits (charMap.getD n 0)) = n := by
  decide +kernel

theorem charMap_getD_bitsIndex :
    ∀ c ∈ charMap, charMap.getD (bitsIndex (charBits c)) 0 = c := by decide +kernel

/-- A hash over the map is told by its bits. -/
theorem eq_of_hashBits_eq {hash hash' : Bytes} (hchars : ∀ c ∈ hash, c ∈ charMap)
    (hchars' : ∀ c ∈ hash', c ∈ charMap) (h : hashBits hash = hashBits hash') : hash = hash' := by
  induction hash generalizing hash' with
  | nil =>
    have hlength := congrArg List.length h
    rw [length_hashBits, length_hashBits, List.length_nil] at hlength
    exact (List.length_eq_zero_iff.mp (by omega)).symm
  | cons c hash ih =>
    cases hash' with
    | nil =>
      have hlength := congrArg List.length h
      rw [length_hashBits, length_hashBits, List.length_cons, List.length_nil] at hlength
      omega
    | cons c' hash' =>
      obtain ⟨hc, hrest⟩ := List.forall_mem_cons.mp hchars
      obtain ⟨hc', hrest'⟩ := List.forall_mem_cons.mp hchars'
      rw [hashBits, hashBits, List.flatMap_cons, List.flatMap_cons] at h
      obtain ⟨hfirst, hlater⟩ := List.append_inj h rfl
      have heq : c = c' := by
        rw [← charMap_getD_bitsIndex c hc, hfirst, charMap_getD_bitsIndex c' hc']
      rw [heq, ih hrest hrest' hlater]

/-! ## Decoding -/

theorem narrow_eq_half (s : Span ℚ) (bit : Bool) : narrow s bit = s.half bit := by
  cases bit
  · simp only [narrow, Span.half, Span.mid, Bool.false_eq_true, if_false, Span.mk.injEq, true_and]
    ring
  · simp only [narrow, Span.half, Span.mid, if_true, Span.mk.injEq, and_true]
    ring

/-- The bits are taken by the two intervals in turn. -/
theorem decodeBits_eq (bits : List Bool) (lng lat : Span ℚ) :
    bits.foldl decodeBit ⟨lng, lat, true⟩ =
        ⟨lng.cut (turns bits).1, lat.cut (turns bits).2, bits.length % 2 == 0⟩ ∧
      bits.foldl decodeBit ⟨lng, lat, false⟩ =
        ⟨lng.cut (turns bits).2, lat.cut (turns bits).1, bits.length % 2 == 1⟩ := by
  induction bits generalizing lng lat with
  | nil => exact ⟨rfl, rfl⟩
  | cons bit bits ih =>
    have hparity : ((bits.length + 1) % 2 == 0) = (bits.length % 2 == 1) ∧
        ((bits.length + 1) % 2 == 1) = (bits.length % 2 == 0) := by
      rcases Nat.mod_two_eq_zero_or_one bits.length with h | h <;> simp [Nat.add_mod, h]
    rw [List.foldl_cons, List.foldl_cons, List.length_cons, hparity.1, hparity.2, turns]
    refine ⟨?_, ?_⟩
    · rw [decodeBit, if_pos rfl, (ih _ _).2, narrow_eq_half]
      rfl
    · rw [decodeBit, if_neg Bool.false_ne_true, (ih _ _).1, narrow_eq_half]
      rfl

theorem decodeChars_eq (hash : Bytes) :
    (decodeChars hash).lngInterval = worldLng.cut (turns (hashBits hash)).1 ∧
      (decodeChars hash).latInterval = worldLat.cut (turns (hashBits hash)).2 := by
  have hbits : decodeChars hash = (hashBits hash).foldl decodeBit ⟨worldLng, worldLat, true⟩ := by
    rw [decodeChars, hashBits, List.foldl_flatMap]
  rw [hbits, (decodeBits_eq _ _ _).1]
  exact ⟨rfl, rfl⟩

/-- How often the intervals are cut for a hash of some length. -/
def lngCuts (length : ℕ) : ℕ := (5 * length + 1) / 2

def latCuts (length : ℕ) : ℕ := 5 * length / 2

/-- The column of a cell, from the west on, and its row, from the south on. -/
def column (hash : Bytes) : ℕ := bitsIndex (turns (hashBits hash)).1

def row (hash : Bytes) : ℕ := bitsIndex (turns (hashBits hash)).2

theorem length_turns_hashBits (hash : Bytes) :
    (turns (hashBits hash)).1.length = lngCuts hash.length ∧
      (turns (hashBits hash)).2.length = latCuts hash.length := by
  rw [(length_turns _).1, (length_turns _).2, length_hashBits]
  exact ⟨rfl, rfl⟩

/-- The size of the cells of hashes of some length. -/
def cellWidth (length : ℕ) : ℚ := 360 / 2 ^ lngCuts length

def cellHeight (length : ℕ) : ℚ := 180 / 2 ^ latCuts length

theorem cellWidth_pos (length : ℕ) : 0 < cellWidth length := by
  unfold cellWidth
  positivity

theorem cellHeight_pos (length : ℕ) : 0 < cellHeight length := by
  unfold cellHeight
  positivity

/-- The ends and the centre of the cell in a row and a column. -/
def cellAt (length : ℕ) (row column : ℤ) : GeoCoord where
  latitude := -90 + cellHeight length * (row + 1 / 2)
  longitude := -180 + cellWidth length * (column + 1 / 2)
  north := -90 + cellHeight length * (row + 1)
  east := -180 + cellWidth length * (column + 1)
  south := -90 + cellHeight length * row
  west := -180 + cellWidth length * column
  dimension := ⟨0, 0⟩

theorem width_world : worldLng.width = 360 ∧ worldLat.width = 180 := by
  constructor
  · norm_num [Span.width, worldLng]
  · norm_num [Span.width, worldLat]

/-- Decoding gives the cell in the row and the column that the bits of the hash stand for. -/
theorem geohashDecode_eq {hash : Bytes} (hhash : hash ≠ []) :
    geohashDecode (some hash) = cellAt hash.length (row hash) (column hash) := by
  obtain ⟨hlng, hlat⟩ := decodeChars_eq hash
  obtain ⟨hcolumns, hrows⟩ := length_turns_hashBits hash
  obtain ⟨c, rest, rfl⟩ := List.exists_cons_of_ne_nil hhash
  have hsouth := Span.low_cut worldLat (turns (hashBits (c :: rest))).2
  have hnorth := Span.high_cut worldLat (turns (hashBits (c :: rest))).2
  have hwest := Span.low_cut worldLng (turns (hashBits (c :: rest))).1
  have heast := Span.high_cut worldLng (turns (hashBits (c :: rest))).1
  rw [hrows, width_world.2] at hsouth hnorth
  rw [hcolumns, width_world.1] at hwest heast
  simp only [geohashDecode, cellAt, hlng, hlat, hsouth, hnorth, hwest, heast, cellWidth,
    cellHeight, row, column, Int.cast_natCast, GeoCoord.mk.injEq, and_true]
  simp only [worldLat, worldLng, and_true]
  exact ⟨by ring, by ring⟩

/-- The cells are as large as `geohash_dimensions_for_precision` says. -/
theorem geohashDimensionsForPrecision_eq {length : ℕ} (h : 0 < length) :
    geohashDimensionsForPrecision length = ⟨cellHeight length, cellWidth length⟩ := by
  have hhalved : ∀ (n : ℕ) (x : ℚ), (· / 2)^[n] x = x / 2 ^ n := by
    intro n
    induction n with
    | zero => simp
    | succ n ih =>
      intro x
      rw [Function.iterate_succ_apply, ih, pow_succ]
      field_simp
  have hlat : ((length : ℤ) * 5 / 2).toNat = latCuts length := by
    unfold latCuts
    omega
  have hlng : ((length : ℤ) * 5 / 2 + if (length : ℤ) % 2 ≠ 0 then 1 else 0).toNat =
      lngCuts length := by
    unfold lngCuts
    split <;> omega
  simp only [geohashDimensionsForPrecision, Nat.cast_pos, h, if_true, hhalved, hlat, hlng,
    cellHeight, cellWidth]

/-! ## Encoding -/

theorem Double.value_eq_fraction (d : Double) :
    d.value = ((if d.negative then -(d.mantissa : ℤ) else d.mantissa : ℤ) : ℚ) *
      (powerFraction 2 d.exponent).1 / (powerFraction 2 d.exponent).2 := by
  have hpower := @powerFraction_value 2 (by decide) d.exponent
  rw [mul_div_assoc, hpower, Double.value, Double.magnitude, sign]
  cases d.negative <;> simp

/-- The comparison of a double with a fraction is exact. -/
theorem Double.exceeds_iff (d : Double) (num : ℤ) {den : ℕ} (hden : 0 < den) :
    d.exceeds num den = decide ((num : ℚ) / den < d.value) := by
  have hpos : (0 : ℚ) < (powerFraction 2 d.exponent).2 := by
    exact_mod_cast (powerFraction_pos (show 0 < 2 by decide) d.exponent).2
  have hden' : (0 : ℚ) < den := by exact_mod_cast hden
  rw [Double.exceeds, decide_eq_decide, Double.value_eq_fraction, div_lt_div_iff₀ hden' hpos]
  exact_mod_cast Iff.rfl

theorem Double.fallsBelow_iff (d : Double) (num : ℤ) {den : ℕ} (hden : 0 < den) :
    d.fallsBelow num den = decide (d.value < (num : ℚ) / den) := by
  have hpos : (0 : ℚ) < (powerFraction 2 d.exponent).2 := by
    exact_mod_cast (powerFraction_pos (show 0 < 2 by decide) d.exponent).2
  have hden' : (0 : ℚ) < den := by exact_mod_cast hden
  rw [Double.fallsBelow, decide_eq_decide, Double.value_eq_fraction, div_lt_div_iff₀ hpos hden']
  exact_mod_cast Iff.rfl

theorem sign_mul_natAbs (z : ℤ) : sign (decide (z < 0)) * (z.natAbs : ℚ) = z := by
  rcases lt_or_ge z 0 with h | h
  · rw [decide_eq_true h, sign, if_pos rfl, Nat.cast_natAbs, abs_of_neg h]
    push_cast
    ring
  · rw [decide_eq_false (not_lt.mpr h), sign, if_neg Bool.false_ne_true, Nat.cast_natAbs,
      abs_of_nonneg h, one_mul]

theorem Double.value_ofInt (z : ℤ) : (Double.ofInt z).value = z := by
  rw [Double.value, Double.magnitude, Double.ofInt, zpow_zero, mul_one, sign_mul_natAbs]

/-- A coordinate is brought within its bounds. -/
theorem sanitize_within {bound : ℤ} (hbound : 0 ≤ bound) (d : Double) :
    -(bound : ℚ) ≤ (sanitize bound d).value ∧ (sanitize bound d).value ≤ bound := by
  have hbound' : (0 : ℚ) ≤ bound := by exact_mod_cast hbound
  unfold sanitize
  rw [Double.exceeds_iff _ _ Nat.one_pos, Double.fallsBelow_iff _ _ Nat.one_pos, Nat.cast_one,
    div_one, div_one]
  split_ifs with habove hbelow
  · rw [Double.value_ofInt]
    exact ⟨by linarith, le_rfl⟩
  · rw [Double.value_ofInt]
    push_cast
    exact ⟨le_rfl, by linarith⟩
  · push_cast at hbelow
    simp only [decide_eq_true_eq, not_lt] at habove hbelow
    exact ⟨hbelow, habove⟩

/-- The ends of an interval of `geohash_encode`. -/
def Interval.span (iv : Interval) : Span ℚ := ⟨iv.low / iv.den, iv.high / iv.den⟩

/-- Halving an interval chooses the half that the coordinate lies in. -/
theorem Interval.halve_eq {iv : Interval} (hden : 0 < iv.den) (coord : Double) :
    (iv.halve coord).1 = decide (iv.span.mid < coord.value) ∧
      (iv.halve coord).2.span = iv.span.half (decide (iv.span.mid < coord.value)) ∧
      0 < (iv.halve coord).2.den := by
  have hmid : ((iv.low + iv.high : ℤ) : ℚ) / (2 * iv.den : ℕ) = iv.span.mid := by
    have hne : (iv.den : ℚ) ≠ 0 := by exact_mod_cast hden.ne'
    simp only [Interval.span, Span.mid]
    push_cast
    field_simp
  have hends : ∀ z : ℤ, ((2 * z : ℤ) : ℚ) / (2 * iv.den : ℕ) = z / iv.den := by
    intro z
    push_cast
    exact mul_div_mul_left _ _ two_ne_zero
  have hexceeds := @Double.exceeds_iff coord (iv.low + iv.high) (2 * iv.den) (by omega)
  rw [hmid] at hexceeds
  have hhalve : iv.halve coord = if iv.span.mid < coord.value
      then (true, ⟨iv.low + iv.high, 2 * iv.high, 2 * iv.den⟩)
      else (false, ⟨2 * iv.low, iv.low + iv.high, 2 * iv.den⟩) := by
    simp only [Interval.halve, hexceeds, decide_eq_true_eq]
  by_cases hupper : iv.span.mid < coord.value
  · rw [hhalve, if_pos hupper, decide_eq_true hupper]
    refine ⟨rfl, ?_, Nat.mul_pos two_pos hden⟩
    rw [Interval.span, hmid, hends]
    rfl
  · rw [hhalve, if_neg hupper, decide_eq_false hupper]
    refine ⟨rfl, ?_, Nat.mul_pos two_pos hden⟩
    rw [Interval.span, hmid, hends]
    rfl

/-- The bits of the characters that are encoded, behind those read so far, follow the two
coordinates in turn. -/
theorem hashBits_geohashLoop (bits n : ℕ) (pre : List Bool) (coord coord' : Double)
    {iv iv' : Interval} (hcount : pre.length ≤ 4) (hbits : bits + pre.length = 5 * n)
    (hden : 0 < iv.den) (hden' : 0 < iv'.den) :
    hashBits (geohashLoop bits pre.length (bitsIndex pre) (coord, iv) (coord', iv')) =
      pre ++ Span.choicesInTurn bits (coord.value, iv.span) (coord'.value, iv'.span) := by
  induction bits generalizing pre n coord coord' iv iv' with
  | zero =>
    have hnone : pre = [] := List.length_eq_zero_iff.mp (by omega)
    subst hnone
    rfl
  | succ bits ih =>
    obtain ⟨hupper, hhalf, hpos⟩ := iv.halve_eq hden coord
    have hnext : 2 * bitsIndex pre + (if (iv.halve coord).1 then 1 else 0) =
        bitsIndex (pre ++ [decide (iv.span.mid < coord.value)]) := by
      rw [bitsIndex_concat, hupper, Bool.toNat, Bool.cond_eq_ite]
    unfold geohashLoop
    simp only [hnext]
    rw [Span.choicesInTurn]
    by_cases hlast : pre.length = 4
    · have hlength : (pre ++ [decide (iv.span.mid < coord.value)]).length = 5 := by
        rw [List.length_append, hlast, List.length_singleton]
      have hchar : charBits (charMap.getD
          (bitsIndex (pre ++ [decide (iv.span.mid < coord.value)])) 0) =
          pre ++ [decide (iv.span.mid < coord.value)] := by
        refine eq_of_bitsIndex_eq (by rw [length_charBits, hlength]) (bitsIndex_charBits _ ?_)
        have hlt := bitsIndex_lt (pre ++ [decide (iv.span.mid < coord.value)])
        rwa [hlength] at hlt
      have hbits' : bits + ([] : List Bool).length = 5 * (n - 1) := by
        rw [List.length_nil]
        omega
      have hrest := ih (n - 1) [] coord' coord (Nat.zero_le _) hbits' hden' hpos
      rw [List.length_nil, bitsIndex_nil, List.nil_append, hhalf] at hrest
      rw [if_pos hlast, hashBits, List.flatMap_cons, hchar, ← hashBits, hrest, List.append_assoc,
        List.singleton_append]
    · have hrest := ih n (pre ++ [decide (iv.span.mid < coord.value)]) coord' coord
        (by simp; omega) (by simp; omega) hden' hpos
      rw [hhalf, List.length_append, List.length_singleton, List.append_assoc,
        List.singleton_append] at hrest
      rw [if_neg hlast, hrest]

/-- The bits of a hash follow the place in turn: one interval its longitude, the other one its
latitude. -/
theorem turns_geohashEncode (lat lng : Double) (precision : ℕ) :
    turns (hashBits (geohashEncode lat lng precision)) =
      (worldLng.choices lng.value (lngCuts precision),
        worldLat.choices lat.value (latCuts precision)) := by
  have hloop := @hashBits_geohashLoop (precision * 5) precision [] lng lat ⟨-180, 180, 1⟩
    ⟨-90, 90, 1⟩ (Nat.zero_le _) (Nat.mul_comm _ _) Nat.one_pos Nat.one_pos
  have hlng : (⟨-180, 180, 1⟩ : Interval).span = worldLng := by norm_num [Interval.span, worldLng]
  have hlat : (⟨-90, 90, 1⟩ : Interval).span = worldLat := by norm_num [Interval.span, worldLat]
  rw [List.length_nil, bitsIndex_nil, List.nil_append, hlng, hlat] at hloop
  rw [geohashEncode, hloop, Span.turns_choicesInTurn, lngCuts, latCuts, mul_comm precision 5]

/-- The row and the column of a place. -/
theorem row_geohashEncode (lat lng : Double) (precision : ℕ) :
    row (geohashEncode lat lng precision) = worldLat.placeOf lat.value (latCuts precision) ∧
      column (geohashEncode lat lng precision) =
        worldLng.placeOf lng.value (lngCuts precision) := by
  rw [row, column, turns_geohashEncode]
  exact ⟨rfl, rfl⟩

end Quarks
