import Quarks.Search.FoundDocuments
import Quarks.Search.ReplacedDocuments

/-!
# Deleted documents

A deletion leaves a blank document, an object without fields, in the place of each document that it
selects. A blank meets no condition, so that it is neither selected nor found again, except where
no condition has to be met at all.
-/

namespace Quarks

open Basis

/-- Every document meets the conditions: all of none. -/
def Selection.IsVacuous (sel : Selection) : Prop := sel.must = true ∧ sel.conditions = []

instance (sel : Selection) : Decidable sel.IsVacuous := inferInstanceAs (Decidable (_ ∧ _))

/-- What is left of a deleted document. -/
def WValue.blank : WValue := .object []

/-- The calls on one index. -/
inductive IndexCall
  | indexDocument (doc : WValue)
  | updateDocument (newDoc : WValue) (sel : Selection)
  | deleteDocument (sel : Selection)
  | searchMultiple (sel : Selection)

namespace ElasticSearch

variable [HashOrder] {tenantId indexName : Bytes}

/-! ## What is deleted -/

/-- The positions of the documents that an update or a deletion selects. -/
def selectedPositions (s : ElasticSearch) (tenantId indexName : Bytes) (sel : Selection) :
    List ℕ :=
  match s.field tenantId indexName, s.counted tenantId indexName with
  | some (.list docs), .ok size =>
    (List.range docs.length).filter fun p => (p : ℤ) < size && isSelected sel (docs.getD p .null)
  | _, _ => []

/-- The index and the positions of the deleted documents after a call. -/
def watchDeleted (tenantId indexName : Bytes) (w : ElasticSearch × List ℕ) :
    IndexCall → ElasticSearch × List ℕ
  | .indexDocument doc => ((w.1.indexDocument tenantId indexName doc).2, w.2)
  | .updateDocument newDoc sel => ((w.1.updateDocument tenantId indexName newDoc sel).2, w.2)
  | .deleteDocument sel => ((w.1.deleteDocument tenantId indexName sel).2,
      w.1.selectedPositions tenantId indexName sel ++ w.2)
  | .searchMultiple _ => w

/-- The turn of a search at a document adds an element to the results that it returns. -/
def ReturnsElement (s : ElasticSearch) (tenantId indexName : Bytes) (sel : Selection) (p : ℕ) :
    Prop :=
  ∃ docs results before e,
    load (dump ((s.index.ref tenantId).ref indexName)) = some (.list docs) ∧
      s.searchMultiple tenantId indexName sel = .ok results ∧
      searchDocs sel (docs.take p) = .ok before ∧
      searchDocs sel (docs.take (p + 1)) = .ok (before ++ [e])

/-- A search returns nothing for the deleted documents, and a deletion that is repeated deletes
nothing. -/
def ForgetsDeleted (tenantId indexName : Bytes) (w : ElasticSearch × List ℕ) : IndexCall → Prop
  | .searchMultiple sel => ∀ p ∈ w.2, ¬w.1.ReturnsElement tenantId indexName sel p
  | .deleteDocument sel => ∀ n, (w.1.deleteDocument tenantId indexName sel).1 = .ok n →
      ((w.1.deleteDocument tenantId indexName sel).2.deleteDocument tenantId indexName sel).1 =
        .ok 0
  | _ => True

/-! ## When it stays deleted -/

/-- An update that selects a deleted document puts a blank one in its place: it selects all, so that
the new document comes first, and what the move has left of it comes after that. -/
def KeepsBlank (tenantId indexName : Bytes) (w : ElasticSearch × List ℕ) : IndexCall → Prop
  | .updateDocument newDoc sel => ∀ p ∈ w.2, p ∈ w.1.selectedPositions tenantId indexName sel →
      (if p = 0 then newDoc else newDoc.moved) = .blank
  | _ => True

/-- A search under no condition finds nothing deleted, and a deletion under no condition finds
nothing at all. -/
def PassesBlanks (tenantId indexName : Bytes) (w : ElasticSearch × List ℕ) : IndexCall → Prop
  | .searchMultiple sel => sel.IsVacuous → w.2 = []
  | .deleteDocument sel => sel.IsVacuous → w.1.selectedPositions tenantId indexName sel = []
  | _ => True

/-! ## Blank documents -/

variable {sel : Selection} {newDoc doc : WValue} {docs : List WValue} {p : ℕ}

/-- Where no condition has to be met, every document is selected. -/
theorem isSelected_of_isVacuous (h : sel.IsVacuous) (doc : WValue) :
    isSelected sel doc = true := by
  rw [isSelected, h.1, h.2]
  rfl

theorem isSelected_blank (sel : Selection) : isSelected sel .blank = decide sel.IsVacuous := by
  have hcount : sel.conditions.countP (meets sel .blank) = 0 :=
    List.countP_eq_zero.mpr fun _ _ => by simp [meets, WValue.blank, WValue.count, WValue.field?]
  rw [isSelected, hcount, Bool.eq_iff_iff, decide_eq_true_eq]
  unfold Selection.IsVacuous
  cases sel.must <;> simp [eq_comm]

omit [HashOrder] in
theorem isFound_blank (sel : Selection) :
    isFound sel (.object []) = .ok (decide sel.IsVacuous) := by
  have hmeets : sel.conditions.mapM (meetsText sel (.object [])) =
      .ok (sel.conditions.map fun _ => false) := mapM_of_forall fun _ _ => rfl
  have hcount : (sel.conditions.map fun _ => false).countP id = 0 := by simp
  rw [isFound, hmeets]
  change Except.ok _ = _
  rw [hcount, Except.ok.injEq, Bool.eq_iff_iff, decide_eq_true_eq]
  unfold Selection.IsVacuous
  cases sel.must <;> simp [eq_comm]

/-- A document that is not selected stays where it is. -/
theorem getElem?_replaceSelected (hdoc : docs[p]? = some doc) (hsel : isSelected sel doc = false) :
    (replaceSelected sel newDoc docs)[p]? = some doc := by
  induction docs generalizing p newDoc with
  | nil => cases hdoc
  | cons first docs ih =>
    rw [replaceSelected]
    cases p with
    | zero =>
      obtain rfl := Option.some.inj hdoc
      rw [if_neg (by simp [hsel])]
      rfl
    | succ p => split <;> exact ih hdoc

/-- Where all documents are selected, the new document comes first, and what is left of it comes
after that. -/
theorem getElem?_replaceSelected_all (hall : ∀ doc ∈ docs, isSelected sel doc = true)
    (hp : p < docs.length) : (replaceSelected sel newDoc docs)[p]? =
      some (if p = 0 then newDoc else newDoc.moved) := by
  cases docs with
  | nil => exact absurd hp (Nat.not_lt_zero p)
  | cons first docs =>
    obtain ⟨hfirst, hrest⟩ := List.forall_mem_cons.mp hall
    rw [replaceSelected, if_pos hfirst]
    cases p with
    | zero => rfl
    | succ p =>
      have hmoved : replaceSelected sel newDoc.moved docs =
          docs.map fun doc => if isSelected sel doc then newDoc.moved else doc :=
        (replaceSelected_eq_map_iff _).mpr ⟨fun _ => rfl, fun _ => WValue.moved_moved _⟩
      have hp : p < docs.length := Nat.lt_of_succ_lt_succ hp
      rw [List.getElem?_cons_succ, hmoved, List.getElem?_map, List.getElem?_eq_getElem hp,
        Option.map_some, if_pos (hrest _ (List.getElem_mem hp)), if_neg p.succ_ne_zero]

/-- A deletion replaces the selected documents by blank ones. -/
theorem replaceSelected_blank (sel : Selection) (docs : List WValue) :
    replaceSelected sel .blank docs =
      docs.map fun doc => if isSelected sel doc then .blank else doc :=
  (replaceSelected_eq_map_iff _).mpr ⟨fun _ => rfl, fun _ => rfl⟩

/-! ## The index -/

omit [HashOrder] in
/-- The index is a list of documents whose counter is their number, as an `int`. -/
structure IsCounted (s : ElasticSearch) (tenantId indexName : Bytes) (docs : List WValue) :
    Prop where
  list : s.field tenantId indexName = some (.list docs)
  size : s.field tenantId (sizeName indexName) = some (.number (Double.ofInt (int32 docs.length)))
  length : docs.length < 2 ^ 32

omit [HashOrder] in
/-- The index is not there yet, or its deleted documents are blank. -/
def BlanksStay (tenantId indexName : Bytes) (w : ElasticSearch × List ℕ) : Prop :=
  (w.1.field tenantId indexName = none ∧ w.2 = []) ∨
    ∃ docs, w.1.IsCounted tenantId indexName docs ∧ ∀ p ∈ w.2, docs[p]? = some .blank

variable {s : ElasticSearch}

theorem IsCounted.counted (h : s.IsCounted tenantId indexName docs) :
    s.counted tenantId indexName = .ok (int32 docs.length) := by
  rw [ElasticSearch.counted, h.size, Option.getD_some, stoi_dump_ofInt (int32_range _)]

theorem IsCounted.mem_selectedPositions (h : s.IsCounted tenantId indexName docs) :
    p ∈ s.selectedPositions tenantId indexName sel ↔
      (p : ℤ) < int32 docs.length ∧ ∃ doc, docs[p]? = some doc ∧ isSelected sel doc = true := by
  rw [selectedPositions, h.list, h.counted]
  simp only [List.mem_filter, List.mem_range, Bool.and_eq_true, decide_eq_true_eq]
  constructor
  · rintro ⟨hp, hsize, hsel⟩
    have hdoc := List.getElem?_eq_getElem hp
    rw [List.getD_eq_getElem?_getD, hdoc, Option.getD_some] at hsel
    exact ⟨hsize, _, hdoc, hsel⟩
  · rintro ⟨hsize, doc, hdoc, hsel⟩
    obtain ⟨hp, -⟩ := List.getElem?_eq_some_iff.mp hdoc
    exact ⟨hp, hsize, by rwa [List.getD_eq_getElem?_getD, hdoc, Option.getD_some]⟩

/-- An update does nothing, or it goes through all documents. -/
theorem IsCounted.updateDocument (h : s.IsCounted tenantId indexName docs) (newDoc : WValue)
    (sel : Selection) :
    (int32 docs.length < 1 ∧ (s.updateDocument tenantId indexName newDoc sel).1 = .ok 0 ∧
      (s.updateDocument tenantId indexName newDoc sel).2.IsCounted tenantId indexName docs) ∨
    (int32 docs.length = docs.length ∧
      (docs.countP (isSelected sel) = 0 →
        (s.updateDocument tenantId indexName newDoc sel).1 = .ok 0) ∧
      (s.updateDocument tenantId indexName newDoc sel).2.IsCounted tenantId indexName
        (replaceSelected sel newDoc docs)) := by
  have hcounted := h.counted
  by_cases hempty : int32 docs.length < 1
  · obtain ⟨hresult, hfield⟩ := updateDocument_empty newDoc sel h.list hcounted hempty
    exact Or.inl ⟨hempty, hresult, (hfield _ _).trans h.list, (hfield _ _).trans h.size, h.length⟩
  · have hlength := h.length
    have hsmall : docs.length < 2 ^ 31 := by
      rw [int32, Int.bmod_def] at hempty
      omega
    have hsize : int32 docs.length = docs.length := int32_eq_self (by omega)
    have hlen := length_replaceSelected sel newDoc docs
    obtain ⟨newDoc', hloop⟩ := @updateLoop_eq _ sel newDoc docs _ (le_refl _) hsmall
    rw [List.take_length, List.drop_length, List.append_nil] at hloop
    obtain ⟨-, hnone, hfield⟩ := updateDocument_loop h.list hcounted hempty
      (by rwa [hsize, Int.toNat_natCast])
    refine Or.inr ⟨hsize, fun hzero => ?_, ?_, ?_, hlen ▸ h.length⟩
    · rw [hnone (by omega), hzero]
      rfl
    · rw [hfield, if_pos ⟨rfl, rfl⟩]
    · rw [hfield, if_neg fun h => sizeName_ne indexName h.2.symm, h.size, hlen]

/-- A list that is as long as an unsigned index allows takes no more documents. -/
theorem IsCounted.indexDocument_full (h : s.IsCounted tenantId indexName docs)
    (hfull : docs.length + 1 = 2 ^ 32) (doc : WValue) (t n : Bytes) :
    (s.indexDocument tenantId indexName doc).2.field t n = s.field t n := by
  have htouch := field_touch s tenantId
  have hsize := (htouch _ _).trans h.size
  have hresized : (WValue.list docs).resized docs.length = none := by
    have hsucc : (docs.length + 1) % 2 ^ 32 = 0 := by omega
    simp only [WValue.resized, hsucc, Nat.zero_sub, List.replicate_zero, List.append_nil,
      lt_irrefl, if_false]
  rw [indexDocument_eq doc (by rw [h.list, Option.isSome_some]),
    (appendDocument_eq doc ((htouch _ _).trans h.list) hsize h.length).1 hresized]
  exact (field_touch_counter hsize t n).trans (htouch t n)

/-- Adding a document leaves the others where they are. -/
theorem IsCounted.indexDocument (h : s.IsCounted tenantId indexName docs) (doc : WValue) :
    ∃ more, (s.indexDocument tenantId indexName doc).2.IsCounted tenantId indexName
      (docs ++ more) := by
  by_cases hlength : docs.length + 1 < 2 ^ 32
  · have hfield := indexDocument_field doc h.list h.size hlength
    refine ⟨[doc], ?_, ?_, ?_⟩
    · rw [hfield, if_neg fun h => sizeName_ne indexName h.2, if_pos ⟨rfl, rfl⟩]
    · rw [hfield, if_pos ⟨rfl, rfl⟩]
    · rwa [List.length_append, List.length_singleton]
  · have hbound := h.length
    have hfield := h.indexDocument_full (by omega) doc
    refine ⟨[], ?_⟩
    rw [List.append_nil]
    exact ⟨(hfield _ _).trans h.list, (hfield _ _).trans h.size, h.length⟩

/-- The first document of an index that is not there. -/
theorem isCounted_first (hnone : s.field tenantId indexName = none) (doc : WValue) :
    (s.indexDocument tenantId indexName doc).2.IsCounted tenantId indexName [doc] := by
  have hstores := indexDocument_stores_first doc hnone
  have hone : int32 [doc].length = [doc].length := int32_eq_self (by
    rw [List.length_singleton]
    omega)
  refine ⟨hstores.list, ?_, ?_⟩
  · rw [hone]
    exact hstores.size
  · rw [List.length_singleton]
    omega

/-- An update of an index that is not there. -/
theorem updateDocument_absent (hnone : s.field tenantId indexName = none) (newDoc : WValue)
    (sel : Selection) : s.updateDocument tenantId indexName newDoc sel = (.ok 0, s) := by
  have hcount : (!s.index.count tenantId || !(s.index.ref tenantId).count indexName) = true := by
    have href : (s.index.ref tenantId).count indexName = false := congrArg Option.isSome hnone
    rw [href, Bool.not_false, Bool.or_true]
  rw [ElasticSearch.updateDocument, if_pos hcount]

/-- A call keeps the deleted documents blank. -/
theorem BlanksStay.watch {w : ElasticSearch × List ℕ} (hw : BlanksStay tenantId indexName w)
    {c : IndexCall} (hc : KeepsBlank tenantId indexName w c) :
    BlanksStay tenantId indexName (watchDeleted tenantId indexName w c) := by
  cases c with
  | indexDocument doc =>
    rcases hw with ⟨hnone, hdeleted⟩ | ⟨docs, hdocs, hblank⟩
    · refine Or.inr ⟨_, isCounted_first hnone doc, fun p hp => ?_⟩
      simp [watchDeleted, hdeleted] at hp
    · obtain ⟨more, hmore⟩ := hdocs.indexDocument doc
      refine Or.inr ⟨_, hmore, fun p hp => ?_⟩
      have hp := hblank p hp
      rw [List.getElem?_append_left (List.getElem?_eq_some_iff.mp hp).1, hp]
  | updateDocument newDoc sel =>
    rcases hw with ⟨hnone, hdeleted⟩ | ⟨docs, hdocs, hblank⟩
    · rw [watchDeleted, updateDocument_absent hnone]
      exact Or.inl ⟨hnone, hdeleted⟩
    · rcases hdocs.updateDocument newDoc sel with ⟨-, -, hsame⟩ | ⟨hsize, -, hreplaced⟩
      · exact Or.inr ⟨docs, hsame, hblank⟩
      · refine Or.inr ⟨_, hreplaced, fun p hp => ?_⟩
        have hdoc := hblank p hp
        cases hsel : isSelected sel .blank with
        | false => exact getElem?_replaceSelected hdoc hsel
        | true =>
          -- all documents are selected
          rw [isSelected_blank, decide_eq_true_eq] at hsel
          have hlt := (List.getElem?_eq_some_iff.mp hdoc).1
          have hselected := hc p hp (hdocs.mem_selectedPositions.mpr
            ⟨by omega, _, hdoc, isSelected_of_isVacuous hsel _⟩)
          rw [getElem?_replaceSelected_all (fun doc _ => isSelected_of_isVacuous hsel doc) hlt,
            hselected]
  | deleteDocument sel =>
    rcases hw with ⟨hnone, hdeleted⟩ | ⟨docs, hdocs, hblank⟩
    · refine Or.inl ?_
      simp only [watchDeleted, ElasticSearch.deleteDocument, updateDocument_absent hnone,
        selectedPositions, hnone, hdeleted, List.append_nil, and_self]
    · rcases hdocs.updateDocument .blank sel with ⟨hempty, -, hsame⟩ | ⟨-, -, hreplaced⟩
      · refine Or.inr ⟨docs, hsame, fun p hp => ?_⟩
        rcases List.mem_append.mp hp with hp | hp
        · have hlt := (hdocs.mem_selectedPositions.mp hp).1
          omega
        · exact hblank p hp
      · refine Or.inr ⟨_, hreplaced, fun p hp => ?_⟩
        rw [replaceSelected_blank, List.getElem?_map]
        rcases List.mem_append.mp hp with hp | hp
        · obtain ⟨-, doc, hdoc, hsel⟩ := hdocs.mem_selectedPositions.mp hp
          rw [hdoc, Option.map_some, if_pos hsel]
        · rw [hblank p hp, Option.map_some, ite_self]
  | searchMultiple sel => exact hw

/-! ## Searches and repeated deletions -/

omit [HashOrder] in
/-- A document that is not found adds nothing. -/
theorem searchDocs_append {docs : List RValue} {doc : RValue} (hdoc : isFound sel doc = .ok false) :
    searchDocs sel (docs ++ [doc]) = searchDocs sel docs := by
  induction docs with
  | nil =>
    simp only [List.nil_append, searchDocs, hdoc]
    rfl
  | cons first docs ih => rw [List.cons_append, searchDocs, ih, searchDocs]

theorem reread_blank : reread .blank = .object [] := by
  have harranged : HashOrder.arrange ([] : List (Bytes × WValue)) = [] :=
    List.perm_nil.mp (HashOrder.perm [])
  rw [WValue.blank, reread_object, harranged, List.map_nil]

/-- A search under some condition returns nothing for a blank document. -/
theorem not_returnsElement (hlist : s.field tenantId indexName = some (.list docs))
    (hblank : docs[p]? = some .blank) (hsel : ¬sel.IsVacuous) :
    ¬s.ReturnsElement tenantId indexName sel p := by
  rintro ⟨found, results, before, e, hload, -, hbefore, hafter⟩
  rw [ref_of_field? hlist, load_dump, reread_list, Option.some.injEq, RValue.list.injEq] at hload
  have hturn : found[p]? = some (.object []) := by
    rw [← hload, List.getElem?_map, hblank, Option.map_some, reread_blank]
  have hfound : isFound sel (.object []) = .ok false := by
    rw [isFound_blank, decide_eq_false hsel]
  rw [List.take_add_one, hturn, Option.toList_some, searchDocs_append hfound, hbefore] at hafter
  have hlength := congrArg List.length (Except.ok.inj hafter)
  rw [List.length_append, List.length_singleton] at hlength
  omega

/-- What is left after a deletion under some condition is not selected again. -/
theorem countP_replaceSelected_blank (hsel : ¬sel.IsVacuous) (docs : List WValue) :
    (replaceSelected sel .blank docs).countP (isSelected sel) = 0 := by
  rw [replaceSelected_blank, List.countP_map, List.countP_eq_zero]
  intro doc _
  simp only [Function.comp_apply]
  split
  · rw [isSelected_blank, decide_eq_false hsel]
    exact Bool.false_ne_true
  · assumption

/-- A deletion that is repeated deletes nothing. -/
theorem BlanksStay.repeated {w : ElasticSearch × List ℕ} (hw : BlanksStay tenantId indexName w)
    (hsel : sel.IsVacuous → w.1.selectedPositions tenantId indexName sel = []) :
    ((w.1.deleteDocument tenantId indexName sel).2.deleteDocument tenantId indexName sel).1 =
      .ok 0 := by
  rcases hw with ⟨hnone, -⟩ | ⟨docs, hdocs, -⟩
  · rw [deleteDocument, deleteDocument, updateDocument_absent hnone, updateDocument_absent hnone]
  rcases hdocs.updateDocument .blank sel with ⟨hempty, -, hsame⟩ | ⟨hsize, -, hreplaced⟩
  · rcases hsame.updateDocument .blank sel with ⟨-, hresult, -⟩ | ⟨hsize, hnone, -⟩
    · exact hresult
    · have hnil : docs = [] := List.eq_nil_of_length_eq_zero (by omega)
      exact hnone (by rw [hnil]; rfl)
  · rcases hreplaced.updateDocument .blank sel with ⟨-, hresult, -⟩ | ⟨-, hnone, -⟩
    · exact hresult
    · refine hnone ?_
      by_cases hvacuous : sel.IsVacuous
      · have hnil : docs = [] := by
          by_contra hne
          obtain ⟨doc, rest, rfl⟩ := List.exists_cons_of_ne_nil hne
          have hmem := hdocs.mem_selectedPositions.mpr ⟨show ((0 : ℕ) : ℤ) < _ by
            rw [hsize, List.length_cons]
            omega, doc, rfl, isSelected_of_isVacuous hvacuous doc⟩
          rw [hsel hvacuous] at hmem
          cases hmem
        rw [hnil]
        rfl
      · exact countP_replaceSelected_blank hvacuous docs

/-- In every state of a run whose updates leave the deleted documents blank, a search returns
nothing for the deleted documents, and a deletion that is repeated deletes nothing, unless they are
made under no condition. -/
theorem deleted_stay {calls : List IndexCall} {c : IndexCall}
    (hstart : s.field tenantId indexName = none ∨ ∃ docs, s.IsCounted tenantId indexName docs)
    (hcalls : EachEvent (watchDeleted tenantId indexName) (KeepsBlank tenantId indexName) (s, [])
      calls)
    (hc : PassesBlanks tenantId indexName
      (runAll (watchDeleted tenantId indexName) (s, []) calls) c) :
    ForgetsDeleted tenantId indexName (runAll (watchDeleted tenantId indexName) (s, []) calls)
      c := by
  have hfirst : BlanksStay tenantId indexName (s, []) := by
    rcases hstart with hnone | ⟨docs, hdocs⟩
    · exact Or.inl ⟨hnone, rfl⟩
    · exact Or.inr ⟨docs, hdocs, fun _ hp => by cases hp⟩
  have hw := runAll_of_eachEvent (fun _ _ hw hc => hw.watch hc) hfirst hcalls (List.prefix_refl _)
  cases c with
  | searchMultiple sel =>
    intro p hp
    rcases hw with ⟨-, hdeleted⟩ | ⟨docs, hdocs, hblank⟩
    · rw [hdeleted] at hp
      cases hp
    · refine not_returnsElement hdocs.list (hblank p hp) fun hsel => ?_
      rw [hc hsel] at hp
      cases hp
  | deleteDocument sel => exact fun _ _ => hw.repeated hc
  | _ => trivial

end ElasticSearch

/-- An index that is not there yet. -/
def noIndex : ElasticSearch := ⟨.null, IndexFile.openFile []⟩

/-- A document is added and deleted. -/
def deletesOne : List IndexCall :=
  [.indexDocument (numberDocument 1), .deleteDocument selectsOne]

/-- The theorem at a run in which a document is deleted and then searched for. -/
theorem deleted_stay_one : @ElasticSearch.ForgetsDeleted .insertion (ascii "t") (ascii "a")
    (runAll (@ElasticSearch.watchDeleted .insertion (ascii "t") (ascii "a")) (noIndex, [])
      deletesOne) (.searchMultiple selectsOne) :=
  @ElasticSearch.deleted_stay .insertion (ascii "t") (ascii "a") noIndex deletesOne _ (Or.inl rfl)
    ⟨trivial, trivial, trivial⟩ fun h => absurd h (by decide)

/-- The index with the document, and after it has been deleted. -/
def oneIndexed : ElasticSearch :=
  (@ElasticSearch.indexDocument .insertion noIndex (ascii "t") (ascii "a") (numberDocument 1)).2

def oneDeleted : ElasticSearch :=
  (@ElasticSearch.deleteDocument .insertion oneIndexed (ascii "t") (ascii "a") selectsOne).2

theorem isSelected_numberDocument_one :
    @ElasticSearch.isSelected .insertion selectsOne (numberDocument 1) = true := by
  decide +kernel

theorem isCounted_oneIndexed :
    oneIndexed.IsCounted (ascii "t") (ascii "a") [numberDocument 1] :=
  @ElasticSearch.isCounted_first .insertion (ascii "t") (ascii "a") noIndex rfl (numberDocument 1)

theorem field_oneDeleted : oneDeleted.field (ascii "t") (ascii "a") = some (.list [.blank]) := by
  have hone : ¬int32 [numberDocument 1].length < 1 := by
    rw [List.length_singleton]
    decide +kernel
  have hdeleted := (@ElasticSearch.IsCounted.updateDocument .insertion _ _ _ _ isCounted_oneIndexed
    .blank selectsOne).resolve_left fun h => hone h.1
  have hlist := hdeleted.2.2.list
  rwa [@ElasticSearch.replaceSelected_blank .insertion, List.map_singleton,
    if_pos isSelected_numberDocument_one] at hlist

/-- A search without conditions returns a blank document for the one that has been deleted. -/
theorem not_forgetsDeleted_vacuous : ¬@ElasticSearch.ForgetsDeleted .insertion (ascii "t")
    (ascii "a") (runAll (@ElasticSearch.watchDeleted .insertion (ascii "t") (ascii "a"))
      (noIndex, []) deletesOne) (.searchMultiple ⟨[], 0, true, true⟩) := by
  have hmem : 0 ∈ @ElasticSearch.selectedPositions .insertion oneIndexed (ascii "t") (ascii "a")
      selectsOne := by
    refine (@ElasticSearch.IsCounted.mem_selectedPositions .insertion _ _ _ _ _ _
      isCounted_oneIndexed).mpr ⟨?_, _, rfl, isSelected_numberDocument_one⟩
    rw [List.length_singleton]
    decide +kernel
  have hload : load (@dump .insertion ((oneDeleted.index.ref (ascii "t")).ref (ascii "a"))) =
      some (.list [.object []]) := by
    rw [ElasticSearch.ref_of_field? field_oneDeleted, @load_dump .insertion,
      @reread_list .insertion, List.map_singleton, @ElasticSearch.reread_blank .insertion]
  have hturn : ElasticSearch.searchDocs ⟨[], 0, true, true⟩ [.object []] = .ok [.object []] := rfl
  have hsearch := @ElasticSearch.searchMultiple_of_field .insertion _ _ _ _ field_oneDeleted
    ⟨[], 0, true, true⟩
  rw [List.map_singleton, @ElasticSearch.reread_blank .insertion, hturn] at hsearch
  have hrun : runAll (@ElasticSearch.watchDeleted .insertion (ascii "t") (ascii "a")) (noIndex, [])
      deletesOne = (oneDeleted, @ElasticSearch.selectedPositions .insertion oneIndexed (ascii "t")
        (ascii "a") selectsOne ++ []) := by
    simp only [runAll, deletesOne, List.foldl_cons, List.foldl_nil, ElasticSearch.watchDeleted,
      oneDeleted, oneIndexed]
  have hreturns : @ElasticSearch.ReturnsElement .insertion oneDeleted (ascii "t") (ascii "a")
      ⟨[], 0, true, true⟩ 0 :=
    ⟨[.object []], [.object []], [], .object [], hload, hsearch, rfl, hturn⟩
  rw [hrun]
  simp only [ElasticSearch.ForgetsDeleted]
  exact fun h => h 0 (List.mem_append_left _ hmem) hreturns

end Quarks
