import Quarks.GeonearCells
import Quarks.Json.Fields
import Quarks.StoredJson

/-!
# Entries put at places and found near them

A database that only `geoput` has written to holds entries with places. `geonear` finds those of
them that lie at most a cell away, and none that lies more than two cells away.
-/

namespace Quarks

open Basis

/-- What `geoput` makes of a body: the key begins with the hash of the place, and the value holds
its coordinates. -/
theorem geoPair_ok {x : RValue} {key : Bytes} {value : WValue} (h : geoPair x = .ok (key, value)) :
    ∃ (lat lng : Double) (name : Bytes) (w : WValue),
      coordinate x (ascii "lat") = .ok lat ∧ coordinate x (ascii "lng") = .ok lng ∧
      key = geohashEncode (sanitize 90 lat) (sanitize 180 lng) 8 ++ ascii "_" ++ name ∧
      w.Distinct ∧ value = ((w.set (ascii "lat") (.number (sanitize 90 lat))).set (ascii "lng")
        (.number (sanitize 180 lng))).set (ascii "hash")
          (.string (geohashEncode (sanitize 90 lat) (sanitize 180 lng) 8)) := by
  have hnull : WValue.null.Distinct := trivial
  unfold geoPair at h
  simp only [bind, Except.bind, pure, Except.pure] at h
  cases hlat : coordinate x (ascii "lat") with
  | error e =>
    simp only [hlat] at h
    repeat' split at h
    all_goals cases h
  | ok lat =>
    cases hlng : coordinate x (ascii "lng") with
    | error e =>
      simp only [hlat, hlng] at h
      repeat' split at h
      all_goals cases h
    | ok lng =>
      simp only [hlat, hlng] at h
      repeat' split at h
      all_goals cases h
      · exact ⟨lat, lng, _, _, rfl, rfl, rfl, (hnull.set _ _).set _ _, rfl⟩
      · exact ⟨lat, lng, _, _, rfl, rfl, rfl, hnull.set _ _, rfl⟩
      · exact ⟨lat, lng, _, _, rfl, rfl, rfl, hnull.set _ _, rfl⟩
      · exact ⟨lat, lng, _, _, rfl, rfl, rfl, hnull, rfl⟩

/-- The place of a request lies within the world. -/
theorem geoRequest_inWorld {x : RValue} {r : GeoRequest} (h : geoRequest x = .ok r) :
    InWorld r.lat.value r.lng.value := by
  suffices hplace : ∃ lat lng, r.lat = sanitize 90 lat ∧ r.lng = sanitize 180 lng by
    obtain ⟨lat, lng, hlat, hlng⟩ := hplace
    rw [hlat, hlng]
    exact ⟨sanitize_within (by decide) lat, sanitize_within (by decide) lng⟩
  unfold geoRequest at h
  simp only [bind, Except.bind, pure, Except.pure] at h
  cases hlat : coordinate x (ascii "lat") with
  | error e =>
    simp only [hlat] at h
    cases h
  | ok lat =>
    cases hlng : coordinate x (ascii "lng") with
    | error e =>
      simp only [hlat, hlng] at h
      cases h
    | ok lng =>
      simp only [hlat, hlng] at h
      repeat' split at h
      all_goals cases h
      all_goals exact ⟨lat, lng, rfl, rfl⟩

section

variable [HashOrder]

/-- The entry is what `geoput` makes of some body that names a place. -/
def IsPutAt (e : Entry) (lat lng : ℚ) : Prop :=
  ∃ x value lat' lng', geoPair x = .ok (e.1, value) ∧ e.2 = dump value ∧
    coordinate x (ascii "lat") = .ok lat' ∧ coordinate x (ascii "lng") = .ok lng' ∧
    lat = (sanitize 90 lat').value ∧ lng = (sanitize 180 lng').value

/-- Every entry has been put at a place. -/
def OnlyPlaces (n : Node) : Prop := ∀ e ∈ n.db.entries, ∃ lat lng, IsPutAt e lat lng

theorem step_geoput {c : Config} {faults : Faults} {w : World} {body : Bytes}
    (hw : OnlyPlaces w.node) : OnlyPlaces (step c faults w (.geoput body)).node := by
  suffices h : DataTriple faults OnlyPlaces (serve c (.geoput body)) (fun _ => OnlyPlaces)
      OnlyPlaces from step_of_triple c h hw
  refine DataTriple.discard (geoput_triple c (fun _ h => h) fun n x key value hn _ hpair => ?_)
  intro e he
  rcases OrderedMap.mem_insert.mp he with rfl | ⟨he, -⟩
  · obtain ⟨lat, lng, -, -, hlat, hlng, -⟩ := geoPair_ok hpair
    exact ⟨_, _, x, value, lat, lng, hpair, rfl, hlat, hlng, rfl, rfl⟩
  · exact hn e he

/-- Only places are stored in a run of `geoput` requests. -/
theorem onlyPlaces_of_run (c : Config) (faults : Faults) (bodies : List Bytes) {w : World}
    (hw : OnlyPlaces w.node) :
    OnlyPlaces (serveAll c faults w (bodies.map .geoput)).node := by
  induction bodies generalizing w with
  | nil => exact hw
  | cons body bodies ih => exact ih (step_geoput hw)

/-- A number that has been printed is read again, if its value can be. -/
theorem coordinate_reread {value : WValue} (name : Bytes) (d : Double) (hdistinct : value.Distinct)
    (hfield : value.field? name = some (.number d)) (hread : Readable (dump value)) :
    ∃ d', coordinate (reread value) name = .ok d' := by
  have hloaded : ∃ e, WValue.ofRValue (reread value) = .ok e := by
    unfold Readable loadValue at hread
    rw [load_dump] at hread
    cases he : WValue.ofRValue (reread value) with
    | ok e => exact ⟨e, rfl⟩
    | error f =>
      simp only [checked, Except.bind, he] at hread
      cases hread
  obtain ⟨e, he⟩ := hloaded
  obtain ⟨v', hv', -⟩ := field?_of_reread hdistinct he hfield
  have hreread : (reread value).field name = .ok (.number (printG10 d)) := by
    rw [field_reread hdistinct hfield, reread]
  obtain ⟨l, hobject, hlookup⟩ := RValue.field_cases hreread
  have hhas : (reread value).has name = .ok true := by
    rw [hobject, RValue.has, hlookup]
    rfl
  rw [reread, WValue.ofRValue] at hv'
  cases htoken : lexicalCastDouble (printG10 d) with
  | none =>
    rw [htoken] at hv'
    cases hv'
  | some d' =>
    refine ⟨d', ?_⟩
    simp only [coordinate, hhas, hreread, bind, Except.bind, if_true, RValue.d, htoken]

/-- An entry put at a place has a place when it is read. -/
theorem IsPutAt.isPlaced {e : Entry} {lat lng : ℚ} (h : IsPutAt e lat lng) (hread : Readable e.2) :
    IsJson e.2 ∧ IsPlaced e.2 := by
  obtain ⟨x, value, lat', lng', hpair, htext, -⟩ := h
  rw [htext] at hread ⊢
  obtain ⟨la, ln, name, w, -, -, -, hw, rfl⟩ := geoPair_ok hpair
  refine ⟨isJson_dump _, fun y hy => ?_⟩
  have hdistinct := ((hw.set (ascii "lat") (.number (sanitize 90 la))).set (ascii "lng")
    (.number (sanitize 180 ln))).set (ascii "hash")
      (.string (geohashEncode (sanitize 90 la) (sanitize 180 ln) 8))
  rw [load_dump] at hy
  obtain rfl := Option.some.inj hy
  have hnames : ascii "lat" ≠ ascii "hash" ∧ ascii "lat" ≠ ascii "lng" ∧
      ascii "lng" ≠ ascii "hash" := by decide
  obtain ⟨a, ha⟩ := coordinate_reread (ascii "lat") (sanitize 90 la) hdistinct
    (by rw [WValue.field?_set, if_neg hnames.1, WValue.field?_set, if_neg hnames.2.1,
      WValue.field?_set, if_pos rfl]) hread
  obtain ⟨b, hb⟩ := coordinate_reread (ascii "lng") (sanitize 180 ln) hdistinct
    (by rw [WValue.field?_set, if_neg hnames.2.2, WValue.field?_set, if_pos rfl]) hread
  exact ⟨a, b, ha, hb⟩

/-! ## Near places -/

omit [HashOrder] in
/-- Without a filter for keys all rests match. -/
theorem restMatches_all {r : GeoRequest} (hall : r.keysFilter = []) (rest : Bytes) :
    restMatches r rest = true := by
  rw [restMatches, hall, wildcmpCStr_iff]
  exact globMatches_star.mpr ⟨[], List.nil_suffix, globMatches_nil.mpr rfl⟩

variable {x : RValue} {r : GeoRequest} {e : Entry} {lat lng : ℚ}

/-- The key of an entry lies in the block of a request if the rows and columns do. -/
theorem inBlock_iff_places (hprecision : 1 ≤ r.precision ∧ r.precision ≤ 8)
    (hall : r.keysFilter = []) (h : IsPutAt e lat lng) :
    InBlock r e.1 = true ↔
      (worldLat.placeOf lat (latCuts r.precision.toNat) ≤
          worldLat.placeOf r.lat.value (latCuts r.precision.toNat) + 1 ∧
        worldLat.placeOf r.lat.value (latCuts r.precision.toNat) ≤
          worldLat.placeOf lat (latCuts r.precision.toNat) + 1) ∧
      worldLng.placeOf lng (lngCuts r.precision.toNat) ≤
          worldLng.placeOf r.lng.value (lngCuts r.precision.toNat) + 1 ∧
        worldLng.placeOf r.lng.value (lngCuts r.precision.toNat) ≤
          worldLng.placeOf lng (lngCuts r.precision.toNat) + 1 := by
  obtain ⟨x', value, lat', lng', hpair, -, hlat', hlng', rfl, rfl⟩ := h
  obtain ⟨la, ln, name, w, hla, hln, hkey, -, -⟩ := geoPair_ok hpair
  obtain rfl : lat' = la := by
    rw [hlat'] at hla
    exact Except.ok.inj hla
  obtain rfl : lng' = ln := by
    rw [hlng'] at hln
    exact Except.ok.inj hln
  have hle : r.precision.toNat ≤ 8 := by omega
  have hcell : r.cell = geohashEncode r.lat r.lng r.precision.toNat := geohashEncode_take _ _ hle
  obtain ⟨hlength, hchars⟩ := geohashEncode_spec (sanitize 90 lat') (sanitize 180 lng') 8
  have htake : e.1.take r.cell.length =
      geohashEncode (sanitize 90 lat') (sanitize 180 lng') r.precision.toNat := by
    rw [hcell, (geohashEncode_spec _ _ _).1, hkey, List.append_assoc,
      List.take_append_of_le_length (by rw [hlength]; exact hle)]
    exact geohashEncode_take _ _ hle
  have htouches : Touches r.cell
        (geohashEncode (sanitize 90 lat') (sanitize 180 lng') r.precision.toNat) ↔
      |((worldLat.placeOf (sanitize 90 lat').value (latCuts r.precision.toNat) : ℕ) : ℤ) -
          (worldLat.placeOf r.lat.value (latCuts r.precision.toNat) : ℕ)| ≤ 1 ∧
        |((worldLng.placeOf (sanitize 180 lng').value (lngCuts r.precision.toNat) : ℕ) : ℤ) -
          (worldLng.placeOf r.lng.value (lngCuts r.precision.toNat) : ℕ)| ≤ 1 := by
    obtain ⟨hrow, hcolumn⟩ := row_geohashEncode (sanitize 90 lat') (sanitize 180 lng')
      r.precision.toNat
    obtain ⟨hrow', hcolumn'⟩ := row_geohashEncode r.lat r.lng r.precision.toNat
    rw [hcell, ← hrow, ← hcolumn, ← hrow', ← hcolumn']
    constructor
    · rintro ⟨-, -, hrows, hcolumns⟩
      exact ⟨hrows, hcolumns⟩
    · rintro ⟨hrows, hcolumns⟩
      exact ⟨by rw [(geohashEncode_spec _ _ _).1, (geohashEncode_spec _ _ _).1],
        (geohashEncode_spec _ _ _).2, hrows, hcolumns⟩
  rw [InBlock, restMatches_all hall, Bool.and_true, decide_eq_true_iff, htake, htouches, abs_le,
    abs_le]
  omega

/-- An entry put not more than a cell away lies in the block, and one in the block has been put
not more than two cells away. -/
theorem inBlock_of_near (hprecision : 1 ≤ r.precision ∧ r.precision ≤ 8)
    (hall : r.keysFilter = []) (hworld : InWorld r.lat.value r.lng.value)
    (h : IsPutAt e lat lng) :
    (|lat - r.lat.value| ≤ cellHeight r.precision.toNat →
      |lng - r.lng.value| ≤ cellWidth r.precision.toNat → InBlock r e.1 = true) ∧
    (InBlock r e.1 = true → |lat - r.lat.value| ≤ 2 * cellHeight r.precision.toNat ∧
      |lng - r.lng.value| ≤ 2 * cellWidth r.precision.toNat) := by
  have hplaces := inBlock_iff_places hprecision hall h
  obtain ⟨x', value, lat', lng', -, -, -, -, rfl, rfl⟩ := h
  have hlat : worldLat.low ≤ (sanitize 90 lat').value ∧ (sanitize 90 lat').value ≤ worldLat.high :=
    sanitize_within (by decide) lat'
  have hlng : worldLng.low ≤ (sanitize 180 lng').value ∧
      (sanitize 180 lng').value ≤ worldLng.high := sanitize_within (by decide) lng'
  rw [hplaces]
  constructor
  · intro hnear hnear'
    rw [cellHeight, ← width_world.2] at hnear
    rw [cellWidth, ← width_world.1] at hnear'
    exact ⟨Span.placeOf_near worldLat_proper hlat hworld.1 hnear,
      Span.placeOf_near worldLng_proper hlng hworld.2 hnear'⟩
  · rintro ⟨⟨hrow, hrow'⟩, hcolumn, hcolumn'⟩
    rw [cellHeight, cellWidth, ← width_world.1, ← width_world.2]
    exact ⟨Span.abs_sub_le_of_placeOf worldLat_proper hlat hworld.1 hrow hrow',
      Span.abs_sub_le_of_placeOf worldLng_proper hlng hworld.2 hcolumn hcolumn'⟩

end

/-- The great-circle distance from the place where the equator meets the prime meridian to
itself. -/
def distanceAtOrigin (lat lng lat' lng' : Double) : Option Double :=
  if [lat, lng, lat', lng'] = List.replicate 4 (Double.ofInt 0) then some (Double.ofInt 0) else none

/-- The place as a field of a body. -/
def originBody : WValue :=
  .object [(ascii "lat", .number (Double.ofInt 0)), (ascii "lng", .number (Double.ofInt 0))]

end Quarks
