import Quarks.Search.ElasticIndexes

/-!
# What an update leaves

An update moves the new document to the first document that is selected. What is left of it, a
value of the same type without its contents, goes to the others. Documents that the counter of the
index does not count are not looked at.
-/

namespace Quarks

open Basis

/-- A value that has been moved is not changed by moving it again. -/
@[simp] theorem WValue.moved_moved (w : WValue) : w.moved.moved = w.moved := by
  cases w <;> rfl

namespace ElasticSearch

variable [HashOrder]

/-- The update has counted the selected documents, and has replaced each of them and nothing else
by the new document. -/
structure Replaces (s s' : ElasticSearch) (tenantId indexName : Bytes) (docs : List WValue)
    (newDoc : WValue) (sel : Selection) (n : ℤ) : Prop where
  count : n = docs.countP (isSelected sel)
  list : s'.field tenantId indexName =
    some (.list (docs.map fun doc => if isSelected sel doc then newDoc else doc))
  others : ∀ t m, (t, m) ≠ (tenantId, indexName) → s'.field t m = s.field t m

/-- The counter counts no more documents than there are, and all that are selected; and two or more
are selected only if moving the new document leaves it as it is. -/
structure CanReplace (s : ElasticSearch) (tenantId indexName : Bytes) (docs : List WValue)
    (newDoc : WValue) (sel : Selection) : Prop where
  counter : ∃ size, s.counted tenantId indexName = .ok size ∧ size ≤ docs.length ∧
    ∀ doc ∈ docs.drop size.toNat, isSelected sel doc = false
  moved : 2 ≤ docs.countP (isSelected sel) → newDoc.moved = newDoc

variable {s s' : ElasticSearch} {tenantId indexName : Bytes} {docs : List WValue}
  {newDoc : WValue} {sel : Selection} {n : ℤ}

/-! ## The documents -/

/-- The first selected document is replaced by the new one, and the others by what is left. -/
theorem replaceSelected_eq_map_iff (d : WValue) :
    replaceSelected sel d docs =
        docs.map (fun doc => if isSelected sel doc then newDoc else doc) ↔
      (1 ≤ docs.countP (isSelected sel) → d = newDoc) ∧
        (2 ≤ docs.countP (isSelected sel) → d.moved = newDoc) := by
  induction docs generalizing d with
  | nil => simp [replaceSelected]
  | cons doc docs ih =>
    rw [replaceSelected, List.map_cons, List.countP_cons]
    split
    · rw [List.cons.injEq, ih d.moved, WValue.moved_moved]
      constructor
      · rintro ⟨hfirst, hrest, -⟩
        exact ⟨fun _ => hfirst, fun htwo => hrest (by omega)⟩
      · rintro ⟨hfirst, hrest⟩
        exact ⟨hfirst (by omega), fun hone => hrest (by omega), fun htwo => hrest (by omega)⟩
    · rw [List.cons.injEq, ih d]
      simp

/-- Documents of which none is selected stay as they are. -/
theorem map_eq_self (h : ∀ doc ∈ docs, isSelected sel doc = false) :
    docs.map (fun doc => if isSelected sel doc then newDoc else doc) = docs := by
  refine (List.map_congr_left fun doc hdoc => ?_).trans (List.map_id docs)
  rw [if_neg (by simp [h doc hdoc]), id_eq]

omit [HashOrder] in
theorem length_resized {w : WValue} {i : ℕ} {l : List WValue} (h : w.resized i = some l) :
    i < l.length := by
  unfold WValue.resized at h
  obtain ⟨hlt, heq⟩ := Option.ite_none_right_eq_some.mp h
  exact Option.some.inj heq ▸ hlt

/-- The loop leaves at least as many documents as it has turns. -/
theorem updateLoop_length {k : ℕ} {st : WValue × WValue × ℤ} {w : WValue}
    (h : updateLoop sel (k + 1) w newDoc = some st) : ∃ l, st.1 = .list l ∧ k < l.length := by
  rw [updateLoop, List.range_succ, List.foldlM_append, Option.bind_eq_bind,
    Option.bind_eq_some_iff] at h
  obtain ⟨before, -, hlast⟩ := h
  simp only [List.foldlM_cons, List.foldlM_nil, bind_pure, updateAt, Option.map_eq_some_iff]
    at hlast
  obtain ⟨l, hl, rfl⟩ := hlast
  have hlength := length_resized hl
  split
  · exact ⟨_, rfl, by rwa [List.length_set]⟩
  · exact ⟨_, rfl, hlength⟩

/-- An update of an index whose counter counts some of the documents. -/
theorem updateDocument_within {size : ℤ} (hlist : s.field tenantId indexName = some (.list docs))
    (hcounted : s.counted tenantId indexName = .ok size) (hsize : size ≤ docs.length)
    (hupdate : (s.updateDocument tenantId indexName newDoc sel).1 = .ok n) :
    n = (docs.take size.toNat).countP (isSelected sel) ∧
      ∀ t m, (s.updateDocument tenantId indexName newDoc sel).2.field t m =
        if t = tenantId ∧ m = indexName then some (.list
          (replaceSelected sel newDoc (docs.take size.toNat) ++ docs.drop size.toNat))
        else s.field t m := by
  by_cases hempty : size < 1
  · obtain ⟨hresult, hfield⟩ := updateDocument_empty newDoc sel hlist hcounted hempty
    have hzero : size.toNat = 0 := by omega
    rw [hresult] at hupdate
    obtain rfl := Except.ok.inj hupdate
    rw [hzero, List.take_zero, List.drop_zero]
    refine ⟨rfl, fun t m => ?_⟩
    rw [hfield]
    split
    · next h => rw [h.1, h.2, hlist, replaceSelected, List.nil_append]
    · rfl
  · obtain ⟨newDoc', hloop⟩ := @updateLoop_eq _ sel newDoc docs size.toNat (by omega)
      (by have := stoi_range hcounted; omega)
    obtain ⟨hresult, -, hfield⟩ := updateDocument_loop hlist hcounted hempty hloop
    exact ⟨hresult n hupdate, hfield⟩

/-- An update of an index whose counter counts more documents than there are adds some. -/
theorem updateDocument_beyond {size : ℤ} {st : WValue × WValue × ℤ}
    (hlist : s.field tenantId indexName = some (.list docs))
    (hcounted : s.counted tenantId indexName = .ok size) (hsize : docs.length < size)
    (hloop : updateLoop sel size.toNat (.list docs) newDoc = some st) :
    ∃ docs', (s.updateDocument tenantId indexName newDoc sel).2.field tenantId indexName =
      some (.list docs') ∧ docs.length < docs'.length := by
  obtain ⟨k, hk⟩ : ∃ k, size.toNat = k + 1 := ⟨size.toNat - 1, by omega⟩
  obtain ⟨w, newDoc', ret⟩ := st
  obtain ⟨l, hl, hlength⟩ := updateLoop_length (hk ▸ hloop)
  obtain ⟨-, -, hfield⟩ := updateDocument_loop hlist hcounted (by omega) hloop
  exact ⟨l, by rw [hfield, if_pos ⟨rfl, rfl⟩, ← hl], by omega⟩

/-- The documents are replaced as they should if none behind the counter is selected, and if moving
the new document leaves it as it is or only one is selected. -/
theorem replaceSelected_append_iff (k : ℕ) :
    ((docs.take k).countP (isSelected sel) = docs.countP (isSelected sel) ∧
      replaceSelected sel newDoc (docs.take k) ++ docs.drop k =
        docs.map fun doc => if isSelected sel doc then newDoc else doc) ↔
      (∀ doc ∈ docs.drop k, isSelected sel doc = false) ∧
        (2 ≤ docs.countP (isSelected sel) → newDoc.moved = newDoc) := by
  have hcount : docs.countP (isSelected sel) = (docs.take k).countP (isSelected sel) +
      (docs.drop k).countP (isSelected sel) := by
    rw [← List.countP_append, List.take_append_drop]
  have hmap : (docs.map fun doc => if isSelected sel doc then newDoc else doc) =
      ((docs.take k).map fun doc => if isSelected sel doc then newDoc else doc) ++
        (docs.drop k).map fun doc => if isSelected sel doc then newDoc else doc := by
    rw [← List.map_append, List.take_append_drop]
  have hbehind : (docs.take k).countP (isSelected sel) = docs.countP (isSelected sel) ↔
      ∀ doc ∈ docs.drop k, isSelected sel doc = false := by
    have hzero := @List.countP_eq_zero _ (docs.drop k) (isSelected sel)
    simp only [Bool.not_eq_true] at hzero
    rw [← hzero]
    omega
  rw [hbehind, and_congr_right_iff]
  intro hnone
  have hsame := hbehind.mpr hnone
  rw [hmap, map_eq_self hnone, List.append_cancel_right_eq,
    replaceSelected_eq_map_iff, hsame]
  simp

/-- An update that returns has replaced exactly the selected documents if and only if the counter
counts them all and no more than there are, and the new document can be moved twice. -/
theorem updateDocument_replaces_iff (hlist : s.field tenantId indexName = some (.list docs))
    (hupdate : s.updateDocument tenantId indexName newDoc sel = (.ok n, s')) :
    Replaces s s' tenantId indexName docs newDoc sel n ↔
      CanReplace s tenantId indexName docs newDoc sel := by
  obtain ⟨hresult, rfl⟩ := Prod.ext_iff.mp hupdate
  obtain ⟨size, hcounted, hloop⟩ := counted_of_ok hlist hresult
  have hcounter : ∀ {size'}, s.counted tenantId indexName = .ok size' → size' = size := fun h =>
    Except.ok.inj (h.symm.trans hcounted)
  by_cases hsize : size ≤ docs.length
  · obtain ⟨rfl, hfield⟩ := updateDocument_within hlist hcounted hsize hresult
    have hhere := hfield tenantId indexName
    rw [if_pos ⟨rfl, rfl⟩] at hhere
    have hiff := @replaceSelected_append_iff _ docs newDoc sel size.toNat
    constructor
    · rintro ⟨hcount, hdocs, -⟩
      rw [hhere, Option.some.injEq, WValue.list.injEq] at hdocs
      obtain ⟨hbehind, hmoved⟩ := hiff.mp ⟨Int.ofNat.inj hcount, hdocs⟩
      exact ⟨⟨size, hcounted, hsize, hbehind⟩, hmoved⟩
    · rintro ⟨⟨size', hcounted', -, hbehind⟩, hmoved⟩
      obtain rfl := hcounter hcounted'
      obtain ⟨hcount, hdocs⟩ := hiff.mpr ⟨hbehind, hmoved⟩
      refine ⟨congrArg Int.ofNat hcount, ?_, fun t m hne => ?_⟩
      · rw [hhere, hdocs]
      · rw [hfield, if_neg fun h => hne (by rw [h.1, h.2])]
  · obtain ⟨st, hloop⟩ := hloop.resolve_left (by omega)
    obtain ⟨docs', hhere, hlength⟩ := updateDocument_beyond hlist hcounted (by omega) hloop
    constructor
    · rintro ⟨-, hdocs, -⟩
      rw [hhere, Option.some.injEq, WValue.list.injEq] at hdocs
      rw [hdocs, List.length_map] at hlength
      exact absurd hlength (lt_irrefl _)
    · rintro ⟨⟨size', hcounted', hsize', -⟩, -⟩
      obtain rfl := hcounter hcounted'
      exact absurd hsize' hsize

end ElasticSearch

/-- A document with a number. -/
def numberDocument (n : ℤ) : WValue := .object [(ascii "n", .number (Double.ofInt n))]

/-- The index `a` with a document of each number, after its file has been opened. -/
def numberedIndex (first second : ℤ) : ElasticSearch :=
  let index := .object [(ascii "t", .object
    [(ascii "a", .list [numberDocument first, numberDocument second]),
      (ascii "a_size", .number (Double.ofInt 2))])]
  ⟨index, IndexFile.openFile (@dump .insertion index)⟩

/-- The documents whose number is one. -/
def selectsOne : Selection := ⟨[(ascii "n", ascii "1")], 0, true, true⟩

theorem field_numberedIndex (first second : ℤ) :
    (numberedIndex first second).field (ascii "t") (ascii "a") =
      some (.list [numberDocument first, numberDocument second]) := rfl

theorem updateDocument_numbered_one : (@ElasticSearch.updateDocument .insertion (numberedIndex 1 3)
    (ascii "t") (ascii "a") (numberDocument 2) selectsOne).1 = .ok 1 := by
  decide +kernel

/-- The theorem at an update that selects one document. -/
theorem updateDocument_replaces_one : @ElasticSearch.Replaces .insertion (numberedIndex 1 3)
    (@ElasticSearch.updateDocument .insertion (numberedIndex 1 3) (ascii "t") (ascii "a")
      (numberDocument 2) selectsOne).2 (ascii "t") (ascii "a")
      [numberDocument 1, numberDocument 3] (numberDocument 2) selectsOne 1 ↔
      @ElasticSearch.CanReplace .insertion (numberedIndex 1 3) (ascii "t") (ascii "a")
        [numberDocument 1, numberDocument 3] (numberDocument 2) selectsOne :=
  @ElasticSearch.updateDocument_replaces_iff .insertion _ _ _ _ _ _ _ _ (field_numberedIndex 1 3)
    (Prod.ext updateDocument_numbered_one rfl)

/-- An update that selects two documents returns two, but leaves the second one blank. -/
theorem updateDocument_blanks_second :
    (@ElasticSearch.updateDocument .insertion (numberedIndex 1 1) (ascii "t") (ascii "a")
        (numberDocument 2) selectsOne).1 = .ok 2 ∧
      ¬@ElasticSearch.Replaces .insertion (numberedIndex 1 1)
        (@ElasticSearch.updateDocument .insertion (numberedIndex 1 1) (ascii "t") (ascii "a")
          (numberDocument 2) selectsOne).2 (ascii "t") (ascii "a")
        [numberDocument 1, numberDocument 1] (numberDocument 2) selectsOne 2 := by
  refine ⟨by decide +kernel, ?_⟩
  rintro ⟨-, hlist, -⟩
  obtain ⟨hstores, -⟩ := @ElasticSearch.updateDocument_stores _ _ _ .insertion _
    (numberDocument 2) selectsOne (field_numberedIndex 1 1) rfl (by decide)
  have hreplaced := hstores.list
  rw [hlist, Option.some.injEq, WValue.list.injEq, eq_comm,
    @ElasticSearch.replaceSelected_eq_map_iff .insertion] at hreplaced
  have hmoved := hreplaced.2 (by decide +kernel)
  cases hmoved

end Quarks
