import Quarks.Core.Geonear

/-!
# The bounds of `geonear`

The precision of a request is the length of a copy, an index and the length of a prefix, and
looking for a neighbour drops border characters from the end of that prefix. Both stay in
bounds for a precision within the hash and a cell that does not lie at an edge of the world.
-/

namespace Quarks

open Basis

/-- `geonear` stays in bounds: the precision lies within the hash, all writes to the buffer lie
in it, and all hashes that neighbours are looked for have a character. -/
structure StaysInBounds (hash : Bytes) (precision : ℤ) : Prop where
  precision_pos : 1 ≤ precision
  precision_le : precision ≤ hash.length
  events : ∀ keysFilter, (hashPrefixes hash precision keysFilter).All GeoEvent.InBounds

section

variable {hash : Bytes} {precision : ℤ}

theorem writeNeighs_spec {index : ℤ} (h : 0 ≤ index ∧ index < 128) :
    (writeNeighs index).All GeoEvent.InBounds ∧ (writeNeighs index).result = some () := by
  unfold writeNeighs
  rw [Traced.all_emit_bind, Traced.result_emit_bind, if_pos h]
  exact ⟨⟨h, Traced.all_pure _⟩, rfl⟩

/-- Copying within the buffer stays in bounds. -/
theorem strncpyNeighs_spec {index n : ℕ} (h : index + n ≤ 128) :
    (strncpyNeighs index n).All GeoEvent.InBounds ∧ (strncpyNeighs index n).result = some () := by
  induction n generalizing index with
  | zero => exact ⟨Traced.all_pure _, rfl⟩
  | succ n ih =>
    have hindex : 0 ≤ (index : ℤ) ∧ (index : ℤ) < 128 := by omega
    obtain ⟨hwrite, hresult⟩ := writeNeighs_spec hindex
    obtain ⟨hrest, hdone⟩ := @ih (index + 1) (by omega)
    unfold strncpyNeighs
    rw [Traced.all_bind, Traced.result_bind, hresult]
    exact ⟨⟨hwrite, fun _ _ => hrest⟩, hdone⟩

/-- With a precision within the buffer, what is left are the calls for the neighbours. -/
theorem hashPrefixes_all (hlow : 0 ≤ precision) (hhigh : precision < 128)
    (hchars : ∀ c ∈ hash, c ∈ charMap) (keysFilter : Bytes) :
    (hashPrefixes hash precision keysFilter).All GeoEvent.InBounds ↔
      ∀ direction, ¬AtEdge direction (hash.take precision.toNat) := by
  have hsize : sizeT precision = precision.toNat := by
    unfold sizeT
    omega
  obtain ⟨hcopy, hcopied⟩ := @strncpyNeighs_spec 0 precision.toNat (by omega)
  obtain ⟨hend, hended⟩ := writeNeighs_spec ⟨hlow, hhigh⟩
  have hprefix : ∀ c ∈ hash.take precision.toNat, c ∈ charMap :=
    fun c hc => hchars c (List.mem_of_mem_take hc)
  have hneighbors := geohashNeighbors_all hprefix
  unfold hashPrefixes
  simp only [hsize, Traced.all_bind, hcopy, hcopied, hend, hended, hneighbors, Traced.all_pure,
    true_and, and_true, implies_true]
  exact ⟨fun h => h () trivial () trivial, fun h _ _ _ _ => h⟩

/-- Staying in bounds is a matter of the precision and of the edges. -/
theorem staysInBounds_iff (hlength : hash.length = 8) (hchars : ∀ c ∈ hash, c ∈ charMap) :
    StaysInBounds hash precision ↔ 1 ≤ precision ∧ precision ≤ 8 ∧
      ∀ direction, ¬AtEdge direction (hash.take precision.toNat) := by
  constructor
  · rintro ⟨hlow, hhigh, hevents⟩
    rw [hlength] at hhigh
    exact ⟨hlow, hhigh, (hashPrefixes_all (by omega) (by omega) hchars []).mp (hevents [])⟩
  · rintro ⟨hlow, hhigh, hedge⟩
    refine ⟨hlow, by rw [hlength]; exact hhigh, fun keysFilter => ?_⟩
    exact (hashPrefixes_all (by omega) (by omega) hchars keysFilter).mpr hedge

/-- The precision that goes with a radius lies within the hash. -/
theorem precisionFor_range (radius : Double) :
    1 ≤ precisionFor radius ∧ precisionFor radius ≤ 8 := by
  unfold precisionFor
  split_ifs <;> decide

end

/-- `geonear` stays in bounds if and only if the precision lies within the eight characters of
the hash and the cell of so many characters does not lie at an edge of the world. With a
precision that goes with a radius it is the edges alone. -/
theorem geonear_staysInBounds_iff {hash : Bytes} (hlength : hash.length = 8)
    (hchars : ∀ c ∈ hash, c ∈ charMap) :
    (∀ precision : ℤ, StaysInBounds hash precision ↔ 1 ≤ precision ∧ precision ≤ 8 ∧
      ∀ direction, ¬AtEdge direction (hash.take precision.toNat)) ∧
    (∀ radius : Double, StaysInBounds hash (precisionFor radius) ↔
      ∀ direction, ¬AtEdge direction (hash.take (precisionFor radius).toNat)) := by
  refine ⟨fun precision => staysInBounds_iff hlength hchars, fun radius => ?_⟩
  obtain ⟨hlow, hhigh⟩ := precisionFor_range radius
  rw [staysInBounds_iff hlength hchars, and_iff_right hlow, and_iff_right hhigh]

/-- A cell in the middle of a continent. -/
theorem staysInBounds_inland : StaysInBounds (ascii "u4pruydq") 5 := by
  have hiff := (@geonear_staysInBounds_iff (ascii "u4pruydq") (by decide) (by decide +kernel)).1 5
  exact hiff.mpr ⟨by decide, by decide, by decide +kernel⟩

/-- The cell where the north pole meets the antimeridian, at the precision of a radius of five
kilometres, and a precision beyond the buffer. -/
theorem not_staysInBounds_pole :
    geohashEncode (Double.ofInt 90) (Double.ofInt (-180)) 8 = ascii "bpbpbpbp" ∧
    precisionFor (Double.ofInt 5) = 5 ∧ ¬StaysInBounds (ascii "bpbpbpbp") 5 ∧
    ¬(hashPrefixes (ascii "u4pruydq") 200 []).All GeoEvent.InBounds := by
  have hpole : ¬(hashPrefixes (ascii "bpbpbpbp") 5 []).All GeoEvent.InBounds := by
    decide +kernel
  exact ⟨by decide +kernel, by decide +kernel, fun h => hpole (h.events []), by decide +kernel⟩

/-- The hash of a request has eight characters of the map, whatever place it names. -/
theorem request_staysInBounds_iff (r : GeoRequest) :
    StaysInBounds (geohashEncode r.lat r.lng 8) r.precision ↔ 1 ≤ r.precision ∧ r.precision ≤ 8 ∧
      ∀ direction, ¬AtEdge direction ((geohashEncode r.lat r.lng 8).take r.precision.toNat) := by
  obtain ⟨hlength, hchars⟩ := geohashEncode_spec r.lat r.lng 8
  exact staysInBounds_iff hlength hchars

end Quarks
