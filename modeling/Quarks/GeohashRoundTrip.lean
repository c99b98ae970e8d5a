import Quarks.GeohashCells

/-!
# From places to cells and back

The cells of one length lie side by side and fill the world: a place has the hash of the one cell
that encloses it. The centre of a cell has the hash of the cell, and everything that is computed
on the way is a double.
-/

namespace Quarks

open Basis

/-- The cell lies around a place. A place on the edge between two cells lies in the one to its
south or west. -/
structure GeoCoord.Encloses (cell : GeoCoord) (lat lng : ℚ) : Prop where
  south_le : cell.south ≤ lat
  le_north : lat ≤ cell.north
  west_le : cell.west ≤ lng
  le_east : lng ≤ cell.east
  south_lt : lat ≠ -90 → cell.south < lat
  west_lt : lng ≠ -180 → cell.west < lng

/-- A coordinate within the world. -/
def InWorld (lat lng : ℚ) : Prop := (-90 ≤ lat ∧ lat ≤ 90) ∧ -180 ≤ lng ∧ lng ≤ 180

instance (lat lng : ℚ) : Decidable (InWorld lat lng) := inferInstanceAs (Decidable (_ ∧ _))

/-- A double with the digits and the exponents that doubles have. -/
structure Double.IsProper (d : Double) : Prop where
  mantissa_lt : d.mantissa < 2 ^ 53
  le_exponent : -1074 ≤ d.exponent
  exponent_le : d.exponent ≤ 971

/-- A number that a double can hold. -/
def IsExact (q : ℚ) : Prop := ∃ d : Double, d.IsProper ∧ d.value = q

section

variable {lat lng : Double} {hash : Bytes}

theorem worldLat_proper : worldLat.low < worldLat.high := by norm_num [worldLat]

theorem worldLng_proper : worldLng.low < worldLng.high := by norm_num [worldLng]

/-- The ends of a cell are those of its intervals. -/
theorem geohashDecode_ends (hhash : hash ≠ []) :
    (geohashDecode (some hash)).south = (worldLat.cut (turns (hashBits hash)).2).low ∧
      (geohashDecode (some hash)).north = (worldLat.cut (turns (hashBits hash)).2).high ∧
      (geohashDecode (some hash)).west = (worldLng.cut (turns (hashBits hash)).1).low ∧
      (geohashDecode (some hash)).east = (worldLng.cut (turns (hashBits hash)).1).high := by
  obtain ⟨hlng, hlat⟩ := decodeChars_eq hash
  obtain ⟨c, rest, rfl⟩ := List.exists_cons_of_ne_nil hhash
  simp only [geohashDecode, hlng, hlat, true_and]

/-- With a precision that is provided for and a place in the world, the hash is encoded. -/
theorem geohashEncodeAt_eq (hworld : InWorld lat.value lng.value) {precision : ℕ}
    (hpos : 1 ≤ precision) (hle : precision ≤ 12) :
    geohashEncodeAt lat lng precision = some (geohashEncode lat lng precision) := by
  obtain ⟨⟨hsouth, hnorth⟩, hwest, heast⟩ := hworld
  have hprecision : ¬((precision : ℤ) < 1 ∨ (12 : ℤ) < precision) := by omega
  simp only [geohashEncodeAt, if_neg hprecision, hsouth, hnorth, hwest, heast, and_self, if_true,
    Int.toNat_natCast]

/-- A place has a hash if the choices that follow it are the bits of the hash. -/
theorem geohashEncode_eq_iff (hworld : InWorld lat.value lng.value)
    (hchars : ∀ c ∈ hash, c ∈ charMap) (hhash : hash ≠ []) :
    geohashEncode lat lng hash.length = hash ↔
      (geohashDecode (some hash)).Encloses lat.value lng.value := by
  obtain ⟨⟨hsouth, hnorth⟩, hwest, heast⟩ := hworld
  obtain ⟨hcolumns, hrows⟩ := length_turns_hashBits hash
  obtain ⟨hlow, hhigh, hleft, hright⟩ := geohashDecode_ends hhash
  have hlat := Span.choices_eq_iff worldLat_proper hsouth hnorth (turns (hashBits hash)).2
  have hlng := Span.choices_eq_iff worldLng_proper hwest heast (turns (hashBits hash)).1
  rw [hrows, ← hlow, ← hhigh] at hlat
  rw [hcolumns, ← hleft, ← hright] at hlng
  have hbits : geohashEncode lat lng hash.length = hash ↔
      turns (hashBits (geohashEncode lat lng hash.length)) = turns (hashBits hash) := by
    constructor
    · intro h
      rw [h]
    · intro h
      exact eq_of_hashBits_eq (geohashEncode_spec lat lng _).2 hchars (turns_injective h)
  rw [hbits, turns_geohashEncode, Prod.ext_iff, hlat, hlng]
  constructor
  · rintro ⟨⟨h₁, h₂, h₃⟩, h₄, h₅, h₆⟩
    exact ⟨h₄, h₅, h₁, h₂, h₆, h₃⟩
  · rintro ⟨h₁, h₂, h₃, h₄, h₅, h₆⟩
    exact ⟨⟨h₃, h₄, h₆⟩, h₁, h₂, h₅⟩

/-- A place has the hash of the cell that encloses it, and of no other cell of that length. -/
theorem geohashEncodeAt_eq_iff (hworld : InWorld lat.value lng.value)
    (hchars : ∀ c ∈ hash, c ∈ charMap) (hlength : 1 ≤ hash.length ∧ hash.length ≤ 12) :
    geohashEncodeAt lat lng hash.length = some hash ↔
      (geohashDecode (some hash)).Encloses lat.value lng.value := by
  rw [geohashEncodeAt_eq hworld hlength.1 hlength.2, Option.some_inj]
  exact geohashEncode_eq_iff hworld hchars (List.ne_nil_of_length_pos hlength.1)

/-- The place where the equator meets the prime meridian lies in the cell to its south-west. -/
theorem encloses_origin : (geohashDecode (some (ascii "7zzz"))).Encloses (Double.ofInt 0).value
    (Double.ofInt 0).value :=
  (@geohashEncodeAt_eq_iff (Double.ofInt 0) (Double.ofInt 0) (ascii "7zzz") (by decide +kernel)
    (by decide +kernel) (by decide)).mp (by decide +kernel)

/-- A shorter hash of a place is the beginning of a longer one. -/
theorem geohashEncode_take (lat lng : Double) {m n : ℕ} (h : m ≤ n) :
    (geohashEncode lat lng n).take m = geohashEncode lat lng m := by
  obtain ⟨hlength, hchars⟩ := geohashEncode_spec lat lng n
  refine eq_of_hashBits_eq (fun c hc => hchars c (List.mem_of_mem_take hc))
    (geohashEncode_spec lat lng m).2 (turns_injective ?_)
  have hsplit : hashBits (geohashEncode lat lng n) =
      hashBits ((geohashEncode lat lng n).take m) ++
        hashBits ((geohashEncode lat lng n).drop m) := by
    rw [hashBits, hashBits, hashBits, ← List.flatMap_append, List.take_append_drop]
  have htaken : ((geohashEncode lat lng n).take m).length = m := by
    rw [List.length_take, hlength, min_eq_left h]
  obtain ⟨hcolumns, hrows⟩ := length_turns_hashBits ((geohashEncode lat lng n).take m)
  rw [htaken] at hcolumns hrows
  have hall := turns_geohashEncode lat lng n
  have hcuts : lngCuts m ≤ lngCuts n ∧ latCuts m ≤ latCuts n := by
    unfold lngCuts latCuts
    omega
  -- whatever the order of the turns behind the first part, it comes first in both intervals
  have hfirst : (turns (hashBits (geohashEncode lat lng n))).1.take (lngCuts m) =
        (turns (hashBits ((geohashEncode lat lng n).take m))).1 ∧
      (turns (hashBits (geohashEncode lat lng n))).2.take (latCuts m) =
        (turns (hashBits ((geohashEncode lat lng n).take m))).2 := by
    rw [hsplit, turns_append]
    split
    · exact ⟨List.take_left' hcolumns, List.take_left' hrows⟩
    · exact ⟨List.take_left' hcolumns, List.take_left' hrows⟩
  rw [turns_geohashEncode, Prod.ext_iff, ← hfirst.1, ← hfirst.2, hall,
    Span.take_choices _ _ hcuts.1, Span.take_choices _ _ hcuts.2]
  exact ⟨rfl, rfl⟩

end

/-! ## Doubles -/

/-- A whole number of less than 53 bits, shifted, is a double. -/
theorem isExact_of_shifted {z : ℤ} {e : ℤ} (hz : z.natAbs < 2 ^ 53) (hlow : -1074 ≤ e)
    (hhigh : e ≤ 971) : IsExact (z * 2 ^ e) := by
  refine ⟨⟨decide (z < 0), z.natAbs, e⟩, ⟨hz, hlow, hhigh⟩, ?_⟩
  rw [Double.value, Double.magnitude, ← mul_assoc, sign_mul_natAbs]

/-- The places that an interval around zero is cut at are doubles, as long as they are not cut
too often. -/
theorem isExact_cut {degrees : ℕ} (hdegrees : degrees ≤ 360) {n k : ℕ} (hn : n ≤ 31)
    (hk : k ≤ 2 ^ n) :
    IsExact (-(degrees : ℚ) / 2 + degrees / 2 ^ n * k) := by
  have hpow : (2 : ℕ) ^ n ≤ 2 ^ 31 := Nat.pow_le_pow_right (by decide) hn
  have hbound : ((degrees : ℤ) * (2 * k - 2 ^ n)).natAbs < 2 ^ 53 := by
    have hinner : ((2 : ℤ) * k - 2 ^ n).natAbs ≤ 2 ^ 31 := by
      have hk' : (k : ℤ) ≤ 2 ^ n := by exact_mod_cast hk
      have hpow' : (2 : ℤ) ^ n ≤ 2 ^ 31 := by exact_mod_cast hpow
      omega
    rw [Int.natAbs_mul, Int.natAbs_natCast]
    calc degrees * ((2 : ℤ) * k - 2 ^ n).natAbs ≤ 360 * 2 ^ 31 := Nat.mul_le_mul hdegrees hinner
      _ < 2 ^ 53 := by norm_num
  have hexact := isExact_of_shifted (e := -(n + 1 : ℕ)) hbound (by omega) (by omega)
  have hvalue : (((degrees : ℤ) * (2 * k - 2 ^ n) : ℤ) : ℚ) * 2 ^ (-((n + 1 : ℕ) : ℤ)) =
      -(degrees : ℚ) / 2 + degrees / 2 ^ n * k := by
    rw [zpow_neg, zpow_natCast, pow_succ]
    push_cast
    field_simp
    ring
  rwa [hvalue] at hexact

/-- The ends and the middle of an interval that `geohash_encode` or `geohash_decode` has cut at
most thirty times are doubles. -/
theorem isExact_intervals (bits : List Bool) (h : bits.length ≤ 30) :
    ∀ world ∈ [worldLat, worldLng], IsExact (world.cut bits).low ∧ IsExact (world.cut bits).high ∧
      IsExact (world.cut bits).mid := by
  have hindex := bitsIndex_lt bits
  have hworld : ∀ (world : Span ℚ) (degrees : ℕ), degrees ≤ 360 →
      world.low = -(degrees : ℚ) / 2 → world.width = degrees →
        IsExact (world.cut bits).low ∧ IsExact (world.cut bits).high ∧
          IsExact (world.cut bits).mid := by
    intro world degrees hdegrees hlow hwidth
    have hmid : (world.cut bits).mid =
        -(degrees : ℚ) / 2 + degrees / 2 ^ (bits.length + 1) * (2 * bitsIndex bits + 1 : ℕ) := by
      rw [Span.mid, Span.low_cut, Span.high_cut, hlow, hwidth, pow_succ]
      push_cast
      field_simp
      ring
    rw [hmid, Span.low_cut, Span.high_cut, hlow, hwidth]
    refine ⟨isExact_cut hdegrees (by omega) hindex.le, ?_,
      isExact_cut hdegrees (by omega) (by rw [pow_succ]; omega)⟩
    exact_mod_cast isExact_cut hdegrees (show bits.length ≤ 31 by omega) (Nat.succ_le_of_lt hindex)
  refine List.forall_mem_cons.mpr ⟨?_, List.forall_mem_singleton.mpr ?_⟩
  · exact hworld worldLat 180 (by decide) (by norm_num [worldLat]) width_world.2
  · exact hworld worldLng 360 (by decide) (by norm_num [worldLng]) width_world.1

/-! ## The centre of a cell -/

/-- Every number that decoding gives. -/
def GeoCoord.numbers (cell : GeoCoord) : List ℚ :=
  [cell.latitude, cell.longitude, cell.north, cell.east, cell.south, cell.west]

/-- Decoding a hash gives doubles, and the centre among them is a place that has the hash. The cell
is as large as its precision says. -/
theorem geohashEncodeAt_centre {hash : Bytes} (hchars : ∀ c ∈ hash, c ∈ charMap)
    (hlength : 1 ≤ hash.length ∧ hash.length ≤ 12) :
    (∀ q ∈ (geohashDecode (some hash)).numbers, IsExact q) ∧
    (∀ lat lng : Double, lat.value = (geohashDecode (some hash)).latitude →
      lng.value = (geohashDecode (some hash)).longitude →
        geohashEncodeAt lat lng hash.length = some hash) ∧
    geohashDimensionsForPrecision hash.length =
      ⟨(geohashDecode (some hash)).north - (geohashDecode (some hash)).south,
        (geohashDecode (some hash)).east - (geohashDecode (some hash)).west⟩ := by
  have hhash : hash ≠ [] := List.ne_nil_of_length_pos hlength.1
  obtain ⟨hcolumns, hrows⟩ := length_turns_hashBits hash
  obtain ⟨hlow, hhigh, hleft, hright⟩ := geohashDecode_ends hhash
  have hcell := geohashDecode_eq hhash
  have hheight := cellHeight_pos hash.length
  have hwidth := cellWidth_pos hash.length
  refine ⟨?_, ?_, ?_⟩
  · obtain ⟨hsouth, hnorth, hlat⟩ := isExact_intervals (turns (hashBits hash)).2
      (by rw [hrows, latCuts]; omega) worldLat (by simp)
    obtain ⟨hwest, heast, hlng⟩ := isExact_intervals (turns (hashBits hash)).1
      (by rw [hcolumns, lngCuts]; omega) worldLng (by simp)
    have hcentre : (geohashDecode (some hash)).latitude =
          (worldLat.cut (turns (hashBits hash)).2).mid ∧
        (geohashDecode (some hash)).longitude = (worldLng.cut (turns (hashBits hash)).1).mid := by
      rw [Span.mid, Span.mid, ← hlow, ← hhigh, ← hleft, ← hright, hcell]
      simp only [cellAt]
      exact ⟨by ring, by ring⟩
    rw [← hlow] at hsouth
    rw [← hhigh] at hnorth
    rw [← hleft] at hwest
    rw [← hright] at heast
    rw [← hcentre.1] at hlat
    rw [← hcentre.2] at hlng
    simp only [GeoCoord.numbers, List.forall_mem_cons, List.not_mem_nil, false_imp_iff,
      implies_true, and_true]
    exact ⟨hlat, hlng, hnorth, heast, hsouth, hwest⟩
  · intro lat lng hlat hlng
    have hlatWithin := Span.cut_within worldLat_proper (turns (hashBits hash)).2
    have hlngWithin := Span.cut_within worldLng_proper (turns (hashBits hash)).1
    rw [← hlow, ← hhigh] at hlatWithin
    rw [← hleft, ← hright] at hlngWithin
    have hinner : (geohashDecode (some hash)).south < lat.value ∧
        lat.value < (geohashDecode (some hash)).north ∧
        (geohashDecode (some hash)).west < lng.value ∧
        lng.value < (geohashDecode (some hash)).east := by
      rw [hlat, hlng, hcell]
      simp only [cellAt]
      refine ⟨?_, ?_, ?_, ?_⟩ <;> nlinarith
    obtain ⟨hsouth, hnorth, hwest, heast⟩ := hinner
    have hworld : InWorld lat.value lng.value :=
      ⟨⟨hlatWithin.1.trans hsouth.le, hnorth.le.trans hlatWithin.2⟩,
        hlngWithin.1.trans hwest.le, heast.le.trans hlngWithin.2⟩
    rw [geohashEncodeAt_eq hworld hlength.1 hlength.2, Option.some_inj,
      geohashEncode_eq_iff hworld hchars hhash]
    exact ⟨hsouth.le, hnorth.le, hwest.le, heast.le, fun _ => hsouth, fun _ => hwest⟩
  · rw [geohashDimensionsForPrecision_eq hlength.1, hcell]
    simp only [cellAt, GeoBoxDimension.mk.injEq]
    exact ⟨by ring, by ring⟩

/-- The theorem at the cell north-east of the origin, whose centre is at 22.5 degrees. -/
theorem geohashEncodeAt_centre_inland :
    geohashEncodeAt ⟨false, 45, -1⟩ ⟨false, 45, -1⟩ 1 = some (ascii "s") ∧
      geohashDimensionsForPrecision 1 = ⟨45, 45⟩ := by
  obtain ⟨-, hcentre, hdimensions⟩ := @geohashEncodeAt_centre (ascii "s")
    (by decide +kernel) (by decide)
  have hlat : (⟨false, 45, -1⟩ : Double).value = (geohashDecode (some (ascii "s"))).latitude := by
    decide +kernel
  have hlng : (⟨false, 45, -1⟩ : Double).value = (geohashDecode (some (ascii "s"))).longitude := by
    decide +kernel
  have hsize : (⟨45, 45⟩ : GeoBoxDimension) =
      ⟨(geohashDecode (some (ascii "s"))).north - (geohashDecode (some (ascii "s"))).south,
        (geohashDecode (some (ascii "s"))).east - (geohashDecode (some (ascii "s"))).west⟩ := by
    rw [GeoBoxDimension.mk.injEq]
    decide +kernel
  exact ⟨hcentre _ _ hlat hlng, hsize ▸ hdimensions⟩

end Quarks
