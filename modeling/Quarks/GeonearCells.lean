import Quarks.FilteredPages
import Quarks.GeohashNeighbors
import Quarks.GeonearBounds
import Quarks.GlobMatching

/-!
# What `geonear` finds

`geonear` goes through the keys that begin with the hash of the cell around its place or of one
of the eight cells that touch it, and drops what is too far. Every entry that `geoput` has stored
for a place not more than a cell away is met.
-/

namespace Quarks

open Basis

/-! ## The cells that touch a cell -/

/-- The hash names a cell that touches another one of the same size, or is that one. -/
structure Touches (hash hash' : Bytes) : Prop where
  length_eq : hash'.length = hash.length
  chars : ∀ c ∈ hash', c ∈ charMap
  row_near : |(row hash' : ℤ) - row hash| ≤ 1
  column_near : |(column hash' : ℤ) - column hash| ≤ 1

instance (hash hash' : Bytes) : Decidable (Touches hash hash') :=
  decidable_of_iff (hash'.length = hash.length ∧ hash'.all (fun c => decide (c ∈ charMap)) = true ∧
      |(row hash' : ℤ) - row hash| ≤ 1 ∧ |(column hash' : ℤ) - column hash| ≤ 1)
    ⟨fun ⟨h₁, h₂, h₃, h₄⟩ => ⟨h₁, by simpa using h₂, h₃, h₄⟩,
      fun ⟨h₁, h₂, h₃, h₄⟩ => ⟨h₁, by simpa using h₂, h₃, h₄⟩⟩

section

variable {hash : Bytes} {hashes : List Bytes} {distances : List (ℤ × ℤ)}

/-- Hashes of one length are told by the rows and columns of their cells. -/
theorem eq_of_row_column {hash' : Bytes} (hlength : hash'.length = hash.length)
    (hchars : ∀ c ∈ hash, c ∈ charMap) (hchars' : ∀ c ∈ hash', c ∈ charMap)
    (hrow : row hash' = row hash) (hcolumn : column hash' = column hash) : hash' = hash := by
  obtain ⟨hcolumns, hrows⟩ := length_turns_hashBits hash
  obtain ⟨hcolumns', hrows'⟩ := length_turns_hashBits hash'
  rw [hlength] at hcolumns' hrows'
  exact eq_of_hashBits_eq hchars' hchars (turns_injective (Prod.ext
    (eq_of_bitsIndex_eq (hcolumns'.trans hcolumns.symm) hcolumn)
    (eq_of_bitsIndex_eq (hrows'.trans hrows.symm) hrow)))

/-- The hashes at the distances are those whose rows and columns are. -/
theorem LieAround.mem_iff (h : LieAround hash hashes distances) (hash' : Bytes) :
    hash' ∈ hashes ↔ hash'.length = hash.length ∧ (∀ c ∈ hash', c ∈ charMap) ∧
      ((row hash' : ℤ) - row hash, (column hash' : ℤ) - column hash) ∈ distances := by
  induction h with
  | nil => simp
  | @cons first d hashes distances hfirst _ ih =>
    obtain ⟨hlength, hchars, hrow, hcolumn⟩ := hfirst
    rw [List.mem_cons, List.mem_cons, ih, Prod.ext_iff]
    constructor
    · rintro (rfl | ⟨hlength', hchars', hmem⟩)
      · exact ⟨hlength, hchars, Or.inl ⟨by simp only; omega, by simp only; omega⟩⟩
      · exact ⟨hlength', hchars', Or.inr hmem⟩
    · rintro ⟨hlength', hchars', ⟨hrow', hcolumn'⟩ | hmem⟩
      · simp only at hrow' hcolumn'
        exact Or.inl (eq_of_row_column (hlength'.trans hlength.symm) hchars hchars' (by omega)
          (by omega))
      · exact Or.inr ⟨hlength', hchars', hmem⟩

theorem LieAround.nodup (h : LieAround hash hashes distances) (hnodup : distances.Nodup) :
    hashes.Nodup := by
  induction h with
  | nil => exact List.nodup_nil
  | @cons first d hashes distances hfirst hrest ih =>
    obtain ⟨hd, hdistances⟩ := List.nodup_cons.mp hnodup
    obtain ⟨-, -, hrow, hcolumn⟩ := hfirst
    refine List.nodup_cons.mpr ⟨fun hmem => hd ?_, ih hdistances⟩
    obtain ⟨-, -, hdistance⟩ := (LieAround.mem_iff hrest first).mp hmem
    have heq : ((row first : ℤ) - row hash, (column first : ℤ) - column hash) = d :=
      Prod.ext (by simp only; omega) (by simp only; omega)
    rwa [heq] at hdistance

/-- A cell and its neighbours are the cells that touch it, each of them once. -/
theorem touching_cells (hchars : ∀ c ∈ hash, c ∈ charMap) (h : LieAround hash hashes compass) :
    (hash :: hashes).Nodup ∧ ∀ hash', hash' ∈ hash :: hashes ↔ Touches hash hash' := by
  have hall : LieAround hash (hash :: hashes) ((0, 0) :: compass) :=
    .cons ⟨rfl, hchars, by simp, by simp⟩ h
  refine ⟨hall.nodup (by decide), fun hash' => (hall.mem_iff hash').trans ?_⟩
  have hnear : ∀ a b : ℤ, (a, b) ∈ (0, 0) :: compass ↔ |a| ≤ 1 ∧ |b| ≤ 1 := by
    intro a b
    simp only [compass, List.mem_cons, Prod.mk.injEq, List.not_mem_nil, or_false, abs_le]
    omega
  rw [hnear]
  exact ⟨fun ⟨h₁, h₂, h₃, h₄⟩ => ⟨h₁, h₂, h₃, h₄⟩, fun ⟨h₁, h₂, h₃, h₄⟩ => ⟨h₁, h₂, h₃, h₄⟩⟩

end

/-! ## The keys that are met -/

/-- The hash of the place of a request, as long as the precision says. -/
def GeoRequest.cell (r : GeoRequest) : Bytes :=
  (geohashEncode r.lat r.lng 8).take r.precision.toNat

/-- Whether what follows the hash in a key is what a request looks for. -/
def restMatches (r : GeoRequest) (rest : Bytes) : Bool :=
  wildcmpCStr (42 :: cstr r.keysFilter) (cstr rest)

/-- The key begins with the hash of a cell that touches that of the request, and goes on as the
request says. -/
def InBlock (r : GeoRequest) (key : Bytes) : Bool :=
  decide (Touches r.cell (key.take r.cell.length)) && restMatches r (key.drop r.cell.length)

/-- The patterns for the cell of a request and some others. -/
def GeoRequest.patterns (r : GeoRequest) (hashes : List Bytes) : List Bytes :=
  (r.cell :: hashes).map (· ++ ascii "*" ++ r.keysFilter)

section

variable {hash rest : Bytes}

/-- The characters of a hash stand for themselves in a pattern. -/
theorem globMatches_hash (hchars : ∀ c ∈ hash, c ∈ charMap) (wild str : Bytes) :
    GlobMatches (hash ++ wild) (hash ++ str) ↔ GlobMatches wild str := by
  have hplain : ∀ c ∈ charMap, c ≠ 42 := by decide +kernel
  induction hash with
  | nil => rfl
  | cons c hash ih =>
    obtain ⟨hc, hrest⟩ := List.forall_mem_cons.mp hchars
    exact (globMatches_cons (hplain c hc)).trans ((and_iff_right (Or.inl rfl)).trans (ih hrest))

theorem zero_not_mem_hash (hchars : ∀ c ∈ hash, c ∈ charMap) : (0 : UInt8) ∉ hash := by
  have hzero : (0 : UInt8) ∉ charMap := by decide +kernel
  exact fun h => hzero (hchars 0 h)

theorem cstr_append_of_zero_not_mem (h : (0 : UInt8) ∉ hash) (rest : Bytes) :
    cstr (hash ++ rest) = hash ++ cstr rest := by
  unfold cstr
  exact List.takeWhile_append_of_pos fun c hc => decide_eq_true fun hzero =>
    h (hzero ▸ hc)

/-- The pattern for a hash accepts the keys with the hash whose rest matches. -/
theorem matching_hash (r : GeoRequest) (store : Store) (hchars : ∀ c ∈ hash, c ∈ charMap) :
    matching store (hash ++ ascii "*" ++ r.keysFilter) = store.entries.filter fun e =>
      decide (e.1.take hash.length = hash) && restMatches r (e.1.drop hash.length) := by
  have hstar : ascii "*" = [42] := by decide
  have hplain : ∀ c ∈ hash, (c != 42) = true := by
    have hmap : ∀ c ∈ charMap, (c != 42) = true := by decide +kernel
    exact fun c hc => hmap c (hchars c hc)
  have hpre : starPrefix (hash ++ ascii "*" ++ r.keysFilter) = hash := by
    rw [hstar, List.append_assoc, starPrefix, List.takeWhile_append_of_pos (by simpa using hplain)]
    simp
  rw [matching, hpre, OrderedMap.withPrefix, List.filter_filter]
  refine List.filter_congr fun e _ => ?_
  by_cases hbegins : hash <+: e.1
  · obtain ⟨rest, hrest⟩ := hbegins
    have haccepts : accepts (hash ++ ascii "*" ++ r.keysFilter) e =
        restMatches r (e.1.drop hash.length) := by
      have hzero := zero_not_mem_hash hchars
      rw [accepts, ← hrest, List.drop_left, restMatches, Bool.eq_iff_iff, wildcmp_iff,
        wildcmpCStr_iff, hstar, List.append_assoc, cstr_append_of_zero_not_mem hzero,
        cstr_append_of_zero_not_mem hzero, globMatches_hash hchars]
      rfl
    have hbegin : hash.isPrefixOf e.1 = true := by
      rw [← hrest]
      simp
    rw [haccepts, ← hrest]
    simp
  · have hno : ¬e.1.take hash.length = hash := fun heq => hbegins ⟨_, by
      conv_rhs => rw [← List.take_append_drop hash.length e.1, heq]⟩
    have hbegin : hash.isPrefixOf e.1 = false := by
      rw [Bool.eq_false_iff, ne_eq, List.isPrefixOf_iff_prefix]
      exact hbegins
    simp [hbegin, hno]

/-- The patterns of a request within bounds are those for the cells that touch its cell. -/
theorem hashPrefixes_result {r : GeoRequest} (hprecision : 1 ≤ r.precision ∧ r.precision ≤ 8)
    (hedges : ∀ direction, ¬AtEdge direction r.cell) :
    ∃ hashes, LieAround r.cell hashes compass ∧
      (hashPrefixes (geohashEncode r.lat r.lng 8) r.precision r.keysFilter).result =
        some (r.patterns hashes) := by
  have hsize : sizeT r.precision = r.precision.toNat := by
    unfold sizeT
    omega
  obtain ⟨-, hcopied⟩ := @strncpyNeighs_spec 0 r.precision.toNat (by omega)
  obtain ⟨-, hended⟩ := @writeNeighs_spec r.precision ⟨by omega, by omega⟩
  have hchars : ∀ c ∈ r.cell, c ∈ charMap :=
    fun c hc => (geohashEncode_spec r.lat r.lng 8).2 c (List.mem_of_mem_take hc)
  obtain ⟨hashes, hresult, haround⟩ := geohashNeighbors_lieAround hchars hedges
  refine ⟨hashes, haround, ?_⟩
  simp only [hashPrefixes, hsize, Traced.result_bind, hcopied, hended, Option.bind_some,
    Traced.result_pure]
  rw [GeoRequest.cell] at hresult
  rw [hresult, Option.bind_some]
  rfl

/-- The entries that are met are those in the block of the request, each of them once. -/
theorem metEntries_perm {r : GeoRequest} {hashes : List Bytes} (store : Store)
    (hcell : r.cell ≠ []) (haround : LieAround r.cell hashes compass) :
    (metEntries store (r.patterns hashes)).Perm
      (store.entries.filter fun e => InBlock r e.1) := by
  have hchars : ∀ c ∈ r.cell, c ∈ charMap :=
    fun c hc => (geohashEncode_spec r.lat r.lng 8).2 c (List.mem_of_mem_take hc)
  obtain ⟨hnodup, htouches⟩ := touching_cells hchars haround
  have hnoStar : ∀ wild ∈ r.patterns hashes,
      isListed wild = true := by
    intro wild hwild
    obtain ⟨hash, hhash, rfl⟩ := List.mem_map.mp hwild
    have hmap : ∀ c ∈ charMap, c ≠ 42 := by decide +kernel
    obtain ⟨hlength, hcs, -⟩ := (htouches hash).mp hhash
    have hne : hash ≠ [] := by
      rw [← List.length_pos_iff, hlength, List.length_pos_iff]
      exact hcell
    obtain ⟨c, rest, rfl⟩ := List.exists_cons_of_ne_nil hne
    simpa [isListed, startsWithStar] using hmap c (hcs c List.mem_cons_self)
  have hmet : metEntries store (r.patterns hashes) =
      (r.cell :: hashes).flatMap fun hash => store.entries.filter fun e =>
        decide (e.1.take r.cell.length = hash) && restMatches r (e.1.drop r.cell.length) := by
    rw [metEntries, List.takeWhile_eq_self_iff.mpr hnoStar, matchingAll, GeoRequest.patterns,
      List.flatMap_map]
    refine List.flatMap_congr fun hash hhash => ?_
    obtain ⟨hlength, hcs, -⟩ := (htouches hash).mp hhash
    rw [matching_hash r store hcs, hlength]
  rw [hmet]
  refine (flatMap_filter_perm _ _ _ hnodup).trans
    (List.Perm.of_eq (List.filter_congr fun e _ => ?_))
  rw [InBlock, decide_eq_decide.mpr (htouches _)]

end

/-! ## The listing -/

/-- The places of the entries are numbers. -/
def IsPlaced (value : Bytes) : Prop :=
  ∀ x, load value = some x → ∃ lat lng, coordinate x (ascii "lat") = .ok lat ∧
    coordinate x (ascii "lng") = .ok lng

/-- The filter of a request on entries with a place. -/
def nearPredicate (geodistance : Double → Double → Double → Double → Option Double)
    (r : GeoRequest) : Predicate := fun x w =>
  let passed := nearFilter geodistance r (some x) w
  (passed.1.toOption.getD false, passed.2)

section

variable {passFilter passFilter' : PassFilter} {win : Window} {store : Store}

/-- What a filter does with the entries is all that counts. -/
theorem filteredLoop_congr {es : List Entry} {wild : Bytes} (i : ℤ)
    (h : ∀ e ∈ es, passEntry passFilter e = passEntry passFilter' e) :
    filteredLoop passFilter win wild i es = filteredLoop passFilter' win wild i es := by
  induction es generalizing i with
  | nil => rfl
  | cons e es ih =>
    obtain ⟨hfirst, hrest⟩ := List.forall_mem_cons.mp h
    have hloop : ∀ j, filteredLoop passFilter win wild j es =
        filteredLoop passFilter' win wild j es := fun j => ih j hrest
    simp only [filteredLoop, hfirst, hloop]

theorem patternsLoop_congr (win : Window) (wilds : List Bytes) (process : Bool) (i : ℤ)
    (h : ∀ e ∈ store.entries, passEntry passFilter e = passEntry passFilter' e) :
    patternsLoop passFilter win store process i wilds =
      patternsLoop passFilter' win store process i wilds := by
  induction wilds generalizing process i with
  | nil => rfl
  | cons wild wilds ih =>
    have hloop : filteredLoop passFilter win wild i (forwardRange store (starPrefix wild)) =
        filteredLoop passFilter' win wild i (forwardRange store (starPrefix wild)) := by
      refine filteredLoop_congr i fun e he => h e ?_
      rw [forwardRange_eq] at he
      exact ((OrderedMap.mem_withPrefix _).mp he).1
    simp only [patternsLoop, hloop, ih]

end

variable {geodistance : Double → Double → Double → Double → Option Double} {c : Config}
  {w : World} {r : GeoRequest} {body : Bytes} {x : RValue}

/-- On a value with a place the filter throws nothing. -/
theorem exists_nearFilter_eq (geodistance : Double → Double → Double → Double → Option Double)
    (r : GeoRequest) {lat lng : Double} (hlat : coordinate x (ascii "lat") = .ok lat)
    (hlng : coordinate x (ascii "lng") = .ok lng) (value : WValue) :
    ∃ pass value', nearFilter geodistance r (some x) value = (.ok pass, value') := by
  have hplace : (do return (← coordinate x (ascii "lat"), ← coordinate x (ascii "lng")) :
      Except Failure (Double × Double)) = .ok (lat, lng) := by
    rw [hlat, hlng]
    rfl
  simp only [nearFilter, hplace]
  cases geodistance r.lat r.lng lat lng with
  | none => exact ⟨_, _, rfl⟩
  | some d =>
    simp only
    split
    · exact ⟨_, _, rfl⟩
    · exact ⟨_, _, rfl⟩

theorem passEntry_near (geodistance : Double → Double → Double → Double → Option Double)
    (r : GeoRequest) {e : Entry} (hjson : IsJson e.2) (hread : Readable e.2)
    (hplaced : IsPlaced e.2) :
    passEntry (nearFilter geodistance r) e =
      passEntry (nearPredicate geodistance r).passFilter e := by
  obtain ⟨x, hx⟩ := Option.isSome_iff_exists.mp hjson
  obtain ⟨lat, lng, hlat, hlng⟩ := hplaced x hx
  have hvalue := (entryValue_of_isJson hjson).trans (loadValue_of_readable hread)
  obtain ⟨pass, value', hfilter⟩ := exists_nearFilter_eq geodistance r hlat hlng (parsedValue e.2)
  simp only [passEntry, hvalue, hx, Predicate.passFilter, nearPredicate, Option.getD_some, hfilter]
  rfl

theorem getAllFiltered_yields (hdb : c.dbOk = true) (n : Node) (wilds : List Bytes)
    (passFilter : PassFilter) (win : Window) :
    Yields noFaults n (getAllFiltered c wilds passFilter win)
      (patternsLoop passFilter win n.db true (-1) wilds) := by
  unfold getAllFiltered
  rw [if_pos hdb]
  exact Yields.bind_ok Yields.dbIterate (Yields.ofExcept _)

/-- A request within bounds lists the entries that `geoput` or others have put into its block and
that are not too far, each of them once. -/
theorem geonear_lists (geodistance : Double → Double → Double → Double → Option Double)
    (hdb : c.dbOk = true) (hjson : ∀ e ∈ w.node.db.entries, IsJson e.2)
    (hread : ∀ e ∈ w.node.db.entries, Readable e.2)
    (hplaced : ∀ e ∈ w.node.db.entries, IsPlaced e.2)
    (hcount : w.node.db.entries.length ≤ 2 ^ 31) (hbody : load body = some x)
    (hrequest : geoRequest x = .ok r) (hprecision : 1 ≤ r.precision ∧ r.precision ≤ 8)
    (hedges : ∀ direction, ¬AtEdge direction r.cell) (out : WValue) :
    ∃ results, answer noFaults w (geonear geodistance c body out ⟨0, -1⟩) =
        .ok (true, out, results) ∧
      results.Perm ((w.node.db.entries.filter fun e => InBlock r e.1).filterMap
        (nearPredicate geodistance r).kept) := by
  have hcell : r.cell ≠ [] := by
    have hlength := (geohashEncode_spec r.lat r.lng 8).1
    rw [← List.length_pos_iff, GeoRequest.cell, List.length_take, hlength]
    omega
  obtain ⟨hashes, haround, hresult⟩ := hashPrefixes_result hprecision hedges
  have hperm := metEntries_perm w.node.db hcell haround
  have hlength := hperm.length_eq.trans_le ((List.length_filter_le _ _).trans hcount)
  have hlisting := @getAllFiltered_answer c w (r.patterns hashes) (nearPredicate geodistance r)
    ⟨0, -1⟩ hdb hjson hlength ⟨by decide, by decide, by decide⟩
  have hsame := patternsLoop_congr ⟨0, -1⟩ (r.patterns hashes) true (-1) fun e he =>
    passEntry_near geodistance r (hjson e he) (hread e he) (hplaced e he)
  have hanswer := (getAllFiltered_yields hdb w.node (r.patterns hashes)
    (nearPredicate geodistance r).passFilter ⟨0, -1⟩ w rfl).1
  rw [hlisting, whole_slice, if_pos fun e he =>
    hread e (List.mem_filter.mp (hperm.mem_iff.mp he)).1] at hanswer
  refine ⟨_, ?_, hperm.filterMap _⟩
  have hyields : Yields noFaults w.node (geonear geodistance c body out ⟨0, -1⟩)
      (.ok (true, out, (metEntries w.node.db (r.patterns hashes)).filterMap
        (nearPredicate geodistance r).kept)) := by
    unfold geonear
    simp only [hbody]
    have hread : Yields noFaults w.node (ofExcept (geoRequest x)) (.ok r) :=
      hrequest ▸ Yields.ofExcept (geoRequest x)
    refine Yields.bind_ok hread ?_
    simp only [hresult]
    have hlisted := getAllFiltered_yields hdb w.node (r.patterns hashes) (nearFilter geodistance r)
      ⟨0, -1⟩
    rw [hsame, ← hanswer] at hlisted
    exact Yields.bind_ok hlisted (Yields.pure _)
  exact (hyields w rfl).1

end Quarks
