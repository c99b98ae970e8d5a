import Quarks.Search.ElasticIndexes

/-!
# What an update selects and what a search finds

An update compares a condition with the text of a field as it is printed, in quotes and
escaped. A search compares it with the text itself. Both count the conditions met in the same
way, so that they agree on a document as long as its quotes and escapes make no difference.
-/

namespace Quarks

open Basis

namespace ElasticSearch

/-- An object whose values are texts. -/
def IsTextDocument (doc : WValue) : Prop :=
  ∃ o, doc = .object o ∧ (o.map Prod.fst).Nodup ∧ ∀ e ∈ o, ∃ t, e.2 = .string t

/-- A document after it has been printed and loaded: its fields come in the order in which
they were iterated. -/
def reloaded [HashOrder] : WValue → WValue
  | .object o => .object (HashOrder.arrange o)
  | w => w

/-- Whether a document meets a condition, when the texts of its fields are read in some way. -/
def meetsAs (read : Bytes → Bytes) (sel : Selection) (doc : WValue) (condition : Bytes × Bytes) :
    Bool :=
  match doc.field? condition.1 with
  | some (.string t) =>
    (if sel.ignoreCase then isNearlyMatchedIgnoreCase else isNearlyMatched)
      (read t) condition.2 sel.fuzziness
  | _ => false

/-- Whether a document meets all conditions, or some condition, when the texts of its fields
are read in some way. -/
def chosenAs (read : Bytes → Bytes) (sel : Selection) (doc : WValue) : Bool :=
  let matchCount := sel.conditions.countP (meetsAs read sel doc)
  (sel.must && matchCount = sel.conditions.length) || (!sel.must && 0 < matchCount)

section

variable {sel : Selection} {doc : WValue}

/-- A field of such an object is a text. -/
theorem IsTextDocument.field? (h : IsTextDocument doc) {name : Bytes} {v : WValue}
    (hv : doc.field? name = some v) : ∃ t, v = .string t := by
  obtain ⟨o, rfl, hnodup, htexts⟩ := h
  exact htexts _ ((lookup_eq_some_iff_mem hnodup).mp hv)

variable [HashOrder]

/-! ## The two ways to choose -/

/-- An update compares the texts of the fields as they are printed. -/
theorem isSelected_eq (h : IsTextDocument doc) (sel : Selection) :
    isSelected sel doc = chosenAs dumpString sel doc := by
  have hmeets : ∀ condition, meets sel doc condition = meetsAs dumpString sel doc condition := by
    intro condition
    cases hv : doc.field? condition.1 with
    | none => simp [meets, meetsAs, WValue.count, hv]
    | some v =>
      obtain ⟨t, rfl⟩ := h.field? hv
      simp [meets, meetsAs, WValue.count, WValue.ref, hv, dump]
  rw [isSelected, chosenAs, funext hmeets]

omit [HashOrder] in
/-- Results that are all there are collected. -/
theorem mapM_of_forall {α β : Type} {f : α → Except Failure β} {g : α → β} {l : List α}
    (h : ∀ a ∈ l, f a = .ok (g a)) : l.mapM f = .ok (l.map g) := by
  induction l with
  | nil => rfl
  | cons a l ih =>
    obtain ⟨ha, hl⟩ := List.forall_mem_cons.mp h
    rw [List.mapM_cons, ha, ih hl]
    rfl

/-- Printing and loading an object leaves every name with its value. -/
theorem lookup_reread {o : List (Bytes × WValue)} (h : (o.map Prod.fst).Nodup) (name : Bytes) :
    ((HashOrder.arrange o).map (Prod.map id reread)).lookup name =
      (o.lookup name).map reread := by
  have harranged : ((HashOrder.arrange o).map Prod.fst).Nodup :=
    ((HashOrder.perm o).map Prod.fst).nodup_iff.mpr h
  rw [lookup_map, lookup_perm (HashOrder.perm o) harranged]

/-- A search compares the texts of the fields themselves. -/
theorem isFound_reread (h : IsTextDocument doc) (sel : Selection) :
    isFound sel (reread doc) = .ok (chosenAs id sel doc) := by
  have hmeets : ∀ condition,
      meetsText sel (reread doc) condition = .ok (meetsAs id sel doc condition) := by
    intro condition
    have hfields := fun {v : WValue} (hv : doc.field? condition.1 = some v) => h.field? hv
    obtain ⟨o, rfl, hnodup, -⟩ := h
    have hlookup := lookup_reread hnodup condition.1
    have hfield? : (WValue.object o).field? condition.1 = o.lookup condition.1 := rfl
    unfold meetsText meetsAs
    rw [reread_object, RValue.has, RValue.field, hlookup, hfield?]
    cases hv : o.lookup condition.1 with
    | none => rfl
    | some v =>
      obtain ⟨t, rfl⟩ := hfields hv
      simp only [Option.map_some, reread]
      change Except.ok ((if sel.ignoreCase then isNearlyMatchedIgnoreCase else isNearlyMatched)
        (unescape (escape t)) condition.2 sel.fuzziness) = _
      rw [unescape_escape]
      rfl
  have hall : sel.conditions.mapM (meetsText sel (reread doc)) =
      .ok (sel.conditions.map (meetsAs id sel doc)) := mapM_of_forall fun c _ => hmeets c
  rw [isFound, hall]
  change Except.ok _ = _
  rw [List.countP_map]
  rfl

omit [HashOrder] in
/-- Fields without a repeated name are converted as they are. -/
theorem foldl_emplace_eq_self {α : Type} {o : List (Bytes × α)} (h : (o.map Prod.fst).Nodup) :
    o.foldl WValue.emplace [] = o := by
  suffices hbefore : ∀ before : List (Bytes × α), ((before ++ o).map Prod.fst).Nodup →
      o.foldl WValue.emplace before = before ++ o from hbefore [] h
  induction o with
  | nil => exact fun before _ => (List.append_nil before).symm
  | cons e o ih =>
    intro before hnodup
    have hnew : (before.lookup e.1).isSome = false := by
      rw [Bool.eq_false_iff, ne_eq, isSome_lookup]
      rw [List.map_append, List.nodup_append] at hnodup
      exact fun hmem => hnodup.2.2 _ hmem _ (by simp) rfl
    rw [List.foldl_cons, WValue.emplace, hnew, if_neg Bool.false_ne_true]
    rw [ih (List.nodup_cons.mp h).2 (before ++ [e]) (by simpa using hnodup)]
    simp

/-- A document that is printed, loaded and converted again. -/
theorem ofRValue_reread (h : IsTextDocument doc) :
    WValue.ofRValue (reread doc) = .ok (reloaded doc) := by
  obtain ⟨o, rfl, hnodup, htexts⟩ := h
  have hfields : ∀ o : List (Bytes × WValue), (∀ e ∈ o, ∃ t, e.2 = .string t) →
      WValue.ofFields (o.map (Prod.map id reread)) = .ok o := by
    intro o htexts
    induction o with
    | nil => rfl
    | cons e o ih =>
      obtain ⟨⟨t, ht⟩, hrest⟩ := List.forall_mem_cons.mp htexts
      obtain ⟨name, v⟩ := e
      cases ht
      rw [List.map_cons, WValue.ofFields, ih hrest]
      simp only [Prod.map, id_eq, reread, WValue.ofRValue, unescape_escape]
      rfl
  rw [reread_object, WValue.ofRValue, hfields _ fun e he =>
    htexts e ((HashOrder.perm o).mem_iff.mp he)]
  change Except.ok (WValue.object _) = _
  rw [foldl_emplace_eq_self (((HashOrder.perm o).map Prod.fst).nodup_iff.mpr hnodup)]
  rfl

/-- The loop of a search takes the documents that are found. -/
theorem searchDocs_eq {docs : List WValue} (htexts : ∀ doc ∈ docs, IsTextDocument doc)
    (sel : Selection) : searchDocs sel (docs.map reread) =
      .ok ((docs.filter (chosenAs id sel)).map reloaded) := by
  induction docs with
  | nil => rfl
  | cons doc docs ih =>
    obtain ⟨hdoc, hdocs⟩ := List.forall_mem_cons.mp htexts
    rw [List.map_cons, searchDocs, isFound_reread hdoc, ih hdocs, ofRValue_reread hdoc]
    by_cases hfound : chosenAs id sel doc = true
    · rw [List.filter_cons_of_pos hfound, hfound]
      rfl
    · rw [List.filter_cons_of_neg hfound, Bool.eq_false_of_not_eq_true hfound]
      rfl

/-! ## Update and search -/

variable {s : ElasticSearch} {tenantId indexName : Bytes} {docs : List WValue}

/-- A search goes through the documents of the index, as they are printed and loaded. -/
theorem searchMultiple_of_field (hlist : s.field tenantId indexName = some (.list docs))
    (sel : Selection) :
    s.searchMultiple tenantId indexName sel = searchDocs sel (docs.map reread) := by
  unfold searchMultiple
  rw [(ref_documents hlist).1, ref_of_field? hlist]
  simp only [load_dump, reread_list]
  rfl

/-- A search of an index of texts. -/
theorem searchMultiple_eq (hlist : s.field tenantId indexName = some (.list docs))
    (htexts : ∀ doc ∈ docs, IsTextDocument doc) (sel : Selection) :
    s.searchMultiple tenantId indexName sel =
      .ok ((docs.filter (chosenAs id sel)).map reloaded) :=
  (searchMultiple_of_field hlist sel).trans (searchDocs_eq htexts sel)

/-- Printing and loading a document changes nothing of what it is chosen by. -/
theorem chosenAs_reloaded (h : IsTextDocument doc) (read : Bytes → Bytes) (sel : Selection) :
    chosenAs read sel (reloaded doc) = chosenAs read sel doc := by
  obtain ⟨o, rfl, hnodup, -⟩ := h
  have hfield : ∀ name, (reloaded (.object o)).field? name = (WValue.object o).field? name :=
    fun name => lookup_perm (HashOrder.perm o)
      (((HashOrder.perm o).map Prod.fst).nodup_iff.mpr hnodup) name
  have hmeets : meetsAs read sel (reloaded (.object o)) = meetsAs read sel (.object o) :=
    funext fun condition => by rw [meetsAs, meetsAs, hfield]
  rw [chosenAs, chosenAs, hmeets]

end

end ElasticSearch

/-- A document with a title. -/
def teaDocument : WValue := .object [(ascii "title", .string (ascii "green tea"))]

/-- The index `a` with that document. -/
def teaIndex : ElasticSearch :=
  @ElasticSearch.step .insertion ⟨.null, IndexFile.openFile []⟩
    (.indexDocument (ascii "t") (ascii "a") teaDocument)

theorem field_teaIndex : teaIndex.field (ascii "t") (ascii "a") = some (.list [teaDocument]) :=
  (@ElasticSearch.indexDocument_stores_first ⟨.null, IndexFile.openFile []⟩ (ascii "t")
    (ascii "a") .insertion teaDocument rfl).list

theorem isTextDocument_tea : ∀ doc ∈ [teaDocument], ElasticSearch.IsTextDocument doc := by
  intro doc hdoc
  rw [List.mem_singleton] at hdoc
  subst hdoc
  refine ⟨_, rfl, List.nodup_singleton _, fun e he => ?_⟩
  rw [List.mem_singleton] at he
  subst he
  exact ⟨_, rfl⟩

end Quarks
