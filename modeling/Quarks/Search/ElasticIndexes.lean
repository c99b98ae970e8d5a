import Quarks.Basis.Run
import Quarks.Search.Elastic

/-!
# Documents and their number

An index is in order if its documents are a list and the length of the list is stored
under the name of its counter. Indexes and counters share the names of their tenant, so
that the counter of `a` and an index `a_size` get in each other's way. As long as no call
lets two of them meet, every index stays in order and calls do not change the documents of
other indexes.
-/

namespace Quarks

open Basis

/-- The tenant and the name of the index that a call is about. -/
def ElasticCall.target : ElasticCall → Bytes × Bytes
  | .indexDocument tenantId indexName _ => (tenantId, indexName)
  | .clearIndex tenantId indexName => (tenantId, indexName)
  | .updateDocument tenantId indexName _ _ => (tenantId, indexName)
  | .deleteDocument tenantId indexName _ => (tenantId, indexName)

namespace ElasticSearch

/-- The indexes to which documents have been added, by tenant and name. -/
abbrev Indexes := List (Bytes × Bytes)

/-- The value under a name of a tenant. -/
def field (s : ElasticSearch) (tenantId name : Bytes) : Option WValue :=
  (s.index.ref tenantId).field? name

/-- An index is a list of documents whose length is stored. -/
def IsIndex (s : ElasticSearch) (i : Bytes × Bytes) : Prop :=
  ∃ docs, s.field i.1 i.2 = some (.list docs) ∧
    s.field i.1 (sizeName i.2) = some (.number (Double.ofInt docs.length))

/-- Every index is in order. -/
def IndexesHold (w : ElasticSearch × Indexes) : Prop := ∀ i ∈ w.2, w.1.IsIndex i

/-- The number of documents of an index that is in order. -/
def documentCount (s : ElasticSearch) (i : Bytes × Bytes) : Option ℕ :=
  match s.field i.1 i.2, s.field i.1 (sizeName i.2) with
  | some (.list docs), some (.number d) =>
    if d = Double.ofInt docs.length then some docs.length else none
  | _, _ => none

/-- A document is added to an index that is in order and can still be counted, or under a
new name whose counter is not an index. A name that is cleared is not a counter, nor is its
counter an index. -/
def KeepsIndexes (w : ElasticSearch × Indexes) : ElasticCall → Prop
  | .indexDocument tenantId indexName _ =>
    (∃ n ∈ w.1.documentCount (tenantId, indexName), n < 2 ^ 31 - 1) ∨
      (w.1.field tenantId indexName).isNone = true ∧ (tenantId, sizeName indexName) ∉ w.2
  | .clearIndex tenantId indexName => (w.1.field tenantId indexName).isSome = true →
      (∀ i ∈ w.2, i.1 = tenantId → indexName ≠ sizeName i.2) ∧
        (tenantId, sizeName indexName) ∉ w.2
  | _ => True

instance (w : ElasticSearch × Indexes) : (c : ElasticCall) → Decidable (KeepsIndexes w c)
  | .indexDocument _ _ _ => inferInstanceAs (Decidable (_ ∨ _))
  | .clearIndex _ _ => inferInstanceAs (Decidable (_ → _))
  | .updateDocument _ _ _ _ => isTrue trivial
  | .deleteDocument _ _ _ => isTrue trivial

section

variable [HashOrder]

/-- The indexes after a call. -/
def watch (w : ElasticSearch × Indexes) : ElasticCall → ElasticSearch × Indexes
  | .indexDocument tenantId indexName doc =>
    (w.1.step (.indexDocument tenantId indexName doc), (tenantId, indexName) :: w.2)
  | c => (w.1.step c, w.2)

/-- A call does not change the documents of the other indexes. -/
def LeavesOthers (w : ElasticSearch × Indexes) (c : ElasticCall) : Prop :=
  ∀ i ∈ w.2, i ≠ c.target → (w.1.step c).field i.1 i.2 = w.1.field i.1 i.2

/-- The documents after an update: the new document is moved to the first that is selected,
and what is left of it replaces the others. -/
def replaceSelected (sel : Selection) : WValue → List WValue → List WValue
  | _, [] => []
  | newDoc, doc :: docs =>
    if isSelected sel doc then newDoc :: replaceSelected sel newDoc.moved docs
    else doc :: replaceSelected sel newDoc docs

end

/-! ## What the calls do to the values -/

section

variable {s s' : ElasticSearch} {tenantId indexName t n : Bytes} {tenant : WValue}

@[simp] theorem field?_touch (w : WValue) (name k : Bytes) :
    (w.touch name).field? k = if k = name then some (w.ref name) else w.field? k :=
  WValue.field?_set _ _ _ _

theorem ref_of_field? {w : WValue} {v : WValue} (h : w.field? n = some v) : w.ref n = v := by
  rw [WValue.ref, h]
  rfl

theorem field_setTenant (s : ElasticSearch) (tenantId : Bytes) (tenant : WValue) (t n : Bytes) :
    (s.setTenant tenantId tenant).field t n =
      if t = tenantId then tenant.field? n else s.field t n := by
  simp only [field, setTenant, WValue.ref, WValue.field?_set]
  split <;> rfl

/-- Looking a tenant up changes no value. -/
theorem field_touch (s : ElasticSearch) (tenantId t n : Bytes) :
    field { s with index := s.index.touch tenantId } t n = s.field t n := by
  simp only [field, WValue.ref, field?_touch]
  split
  · next heq => rw [heq]; rfl
  · rfl

theorem field_persistIndex [HashOrder] (s : ElasticSearch) (t n : Bytes) :
    s.persistIndex.2.field t n = s.field t n := by
  unfold persistIndex
  split <;> rfl

/-- A call has stored documents and their number, and has changed no other value. -/
structure Stores (s s' : ElasticSearch) (tenantId indexName : Bytes) (docs : List WValue) :
    Prop where
  list : s'.field tenantId indexName = some (.list docs)
  size : s'.field tenantId (sizeName indexName) = some (.number (Double.ofInt docs.length))
  others : ∀ t n, (t, n) ≠ (tenantId, indexName) → (t, n) ≠ (tenantId, sizeName indexName) →
    s'.field t n = s.field t n

theorem sizeName_ne (indexName : Bytes) : indexName ≠ sizeName indexName := by
  intro h
  have hlen := congrArg List.length h
  simp [sizeName, ascii] at hlen

theorem sizeName_inj {n n' : Bytes} : sizeName n = sizeName n' ↔ n = n' := List.append_left_inj _

/-- Storing a list and a counter in a tenant that has its other values from before. -/
theorem field_setTenant_list {docs : List WValue} {d : Double}
    (htenant : ∀ n, n ≠ sizeName indexName → tenant.field? n = s.field tenantId n) (t n : Bytes) :
    (s.setTenant tenantId ((tenant.set indexName (.list docs)).set (sizeName indexName)
        (.number d))).field t n =
      if t = tenantId ∧ n = sizeName indexName then some (.number d)
      else if t = tenantId ∧ n = indexName then some (.list docs) else s.field t n := by
  rw [field_setTenant]
  by_cases ht : t = tenantId
  · simp only [ht, true_and, if_true, WValue.field?_set]
    split
    · rfl
    · next hsize => rw [htenant n hsize]
  · rw [if_neg ht, if_neg fun h => ht h.1, if_neg fun h => ht h.1]

/-- Storing a list and its length. -/
theorem stores_setTenant {docs : List WValue} {d : Double} (hd : d = Double.ofInt docs.length)
    (htenant : ∀ n, n ≠ sizeName indexName → tenant.field? n = s.field tenantId n) :
    Stores s (s.setTenant tenantId ((tenant.set indexName (.list docs)).set (sizeName indexName)
      (.number d))) tenantId indexName docs := by
  have hfield := @field_setTenant_list s tenantId indexName tenant docs d htenant
  refine ⟨?_, ?_, fun t n hname hsize => ?_⟩
  · rw [hfield, if_neg fun h => sizeName_ne indexName h.2, if_pos ⟨rfl, rfl⟩]
  · rw [hfield, if_pos ⟨rfl, rfl⟩, hd]
  · rw [hfield, if_neg fun h => hsize (by rw [h.1, h.2]), if_neg fun h => hname (by rw [h.1, h.2])]

/-- What a call stores is seen in any state with the same values. -/
theorem Stores.congr {docs : List WValue} (h : Stores s s' tenantId indexName docs)
    {r r' : ElasticSearch} (hr : ∀ t n, s.field t n = r.field t n)
    (hr' : ∀ t n, r'.field t n = s'.field t n) : Stores r r' tenantId indexName docs :=
  ⟨(hr' _ _).trans h.list, (hr' _ _).trans h.size, fun t n hname hsize =>
    (hr' t n).trans ((h.others t n hname hsize).trans (hr t n))⟩

/-- Referring to an element of a list makes the list long enough. -/
theorem resized_list {docs : List WValue} {i : ℕ} (hsmall : i + 1 < 2 ^ 32) :
    (WValue.list docs).resized i = some (docs ++ List.replicate (i + 1 - docs.length) .null) := by
  have hsucc : (i + 1) % 2 ^ 32 = i + 1 := by omega
  simp only [WValue.resized, hsucc]
  rw [if_pos]
  rw [List.length_append, List.length_replicate]
  omega

/-- Whether a name is there is seen in the tenant. -/
theorem count_ref (s : ElasticSearch) (tenantId indexName : Bytes) :
    (WValue.ref { s with index := s.index.touch tenantId }.index tenantId).count indexName =
      (s.field tenantId indexName).isSome :=
  congrArg Option.isSome (field_touch s tenantId tenantId indexName)

variable [HashOrder]

theorem stoi_dump_ofInt {z : ℤ} (h : -2 ^ 31 ≤ z ∧ z < 2 ^ 31) :
    stoi (dump (.number (Double.ofInt z))) = .ok z := by
  rw [dump, printG10_ofInt (by omega), stoi_toString h]

theorem stoi_dump_null : stoi (dump .null) = .error .invalidArgument := by
  rw [dump]
  decide

/-- A list is not a number. -/
theorem stoi_dump_list (l : List WValue) : stoi (dump (.list l)) = .error .invalidArgument := by
  have hspace : isSpace 91 = false := rfl
  have hdigit : isDigit 91 = false := rfl
  simp [dump_list, stoi, hspace, hdigit]

/-- Where a document is added to an index whose counter is the length of its list, as an `int`. -/
theorem appendDocument_eq {docs : List WValue} (doc : WValue)
    (hlist : s.field tenantId indexName = some (.list docs))
    (hsize : s.field tenantId (sizeName indexName) =
      some (.number (Double.ofInt (int32 docs.length))))
    (hlength : docs.length < 2 ^ 32) :
    ((WValue.list docs).resized docs.length = none → s.appendDocument tenantId indexName doc =
      (.error .undefined,
        s.setTenant tenantId ((s.index.ref tenantId).touch (sizeName indexName)))) ∧
    ∀ l, (WValue.list docs).resized docs.length = some l →
      s.appendDocument tenantId indexName doc = (s.setTenant tenantId
        ((((s.index.ref tenantId).touch (sizeName indexName)).set indexName
          (.list (l.set docs.length doc))).set (sizeName indexName)
            (.number (Double.ofInt (int32 (docs.length + 1)))))).persistIndex := by
  obtain ⟨z, hz⟩ : ∃ z, int32 docs.length = z := ⟨_, rfl⟩
  have hstoi := stoi_dump_ofInt (hz ▸ int32_range docs.length)
  have hdocs : ((s.index.ref tenantId).touch (sizeName indexName)).ref indexName = .list docs := by
    apply ref_of_field?
    rw [field?_touch, if_neg (sizeName_ne indexName)]
    exact hlist
  have hcounter : ((s.index.ref tenantId).touch (sizeName indexName)).ref (sizeName indexName) =
      .number (Double.ofInt z) := by
    apply ref_of_field?
    rw [field?_touch, if_pos rfl, ref_of_field? hsize, hz]
  -- the position is unsigned: it is the length again
  have hposition : (z % 2 ^ 32).toNat = docs.length := by
    rw [← hz, int32, Int.bmod_def]
    omega
  have hnumber : int32 (z + 1) = int32 (docs.length + 1) := by rw [← hz, int32_add]
  simp only [appendDocument, hcounter, hstoi, hdocs, hposition, hnumber]
  refine ⟨fun hnone => ?_, fun l hl => ?_⟩
  · rw [hnone]
  · rw [hl]

/-- Adding a document to such an index, if it takes one more. -/
theorem appendDocument_field {docs : List WValue} (doc : WValue)
    (hlist : s.field tenantId indexName = some (.list docs))
    (hsize : s.field tenantId (sizeName indexName) =
      some (.number (Double.ofInt (int32 docs.length))))
    (hlength : docs.length + 1 < 2 ^ 32) (t n : Bytes) :
    (s.appendDocument tenantId indexName doc).2.field t n =
      if t = tenantId ∧ n = sizeName indexName then
        some (.number (Double.ofInt (int32 (docs ++ [doc]).length)))
      else if t = tenantId ∧ n = indexName then some (.list (docs ++ [doc]))
      else s.field t n := by
  have htouch : ∀ n, n ≠ sizeName indexName →
      ((s.index.ref tenantId).touch (sizeName indexName)).field? n = s.field tenantId n := by
    intro n hn
    rw [field?_touch, if_neg hn, field]
  have hset : (docs ++ List.replicate (docs.length + 1 - docs.length) WValue.null).set docs.length
      doc = docs ++ [doc] := by
    rw [Nat.add_sub_cancel_left]
    simp
  rw [(appendDocument_eq doc hlist hsize (by omega)).2 _ (resized_list hlength), hset,
    field_persistIndex, field_setTenant_list htouch, List.length_append, List.length_singleton,
    Nat.cast_succ]

/-- Adding a document to an index that is there. -/
theorem indexDocument_eq (doc : WValue)
    (hsome : (s.field tenantId indexName).isSome = true) :
    s.indexDocument tenantId indexName doc =
      appendDocument { s with index := s.index.touch tenantId } tenantId indexName doc := by
  have hcount := (count_ref s tenantId indexName).trans hsome
  simp only [indexDocument, hcount, if_true]

theorem indexDocument_field {docs : List WValue} (doc : WValue)
    (hlist : s.field tenantId indexName = some (.list docs))
    (hsize : s.field tenantId (sizeName indexName) =
      some (.number (Double.ofInt (int32 docs.length))))
    (hlength : docs.length + 1 < 2 ^ 32) (t n : Bytes) :
    (s.indexDocument tenantId indexName doc).2.field t n =
      if t = tenantId ∧ n = sizeName indexName then
        some (.number (Double.ofInt (int32 (docs ++ [doc]).length)))
      else if t = tenantId ∧ n = indexName then some (.list (docs ++ [doc]))
      else s.field t n := by
  have htouch := field_touch s tenantId
  rw [indexDocument_eq doc (by rw [hlist, Option.isSome_some]),
    appendDocument_field doc ((htouch _ _).trans hlist) ((htouch _ _).trans hsize) hlength, htouch]

/-- Adding a document to an index that is in order. -/
theorem indexDocument_stores {docs : List WValue} (doc : WValue)
    (hlist : s.field tenantId indexName = some (.list docs))
    (hsize : s.field tenantId (sizeName indexName) = some (.number (Double.ofInt docs.length)))
    (hlength : docs.length < 2 ^ 31 - 1) :
    Stores s (s.indexDocument tenantId indexName doc).2 tenantId indexName (docs ++ [doc]) := by
  have hsize' : s.field tenantId (sizeName indexName) =
      some (.number (Double.ofInt (int32 docs.length))) := by
    rw [hsize, int32_eq_self (by omega)]
  have hcounter : int32 (docs ++ [doc]).length = (docs ++ [doc]).length := by
    apply int32_eq_self
    rw [List.length_append, List.length_singleton]
    omega
  have hfield := indexDocument_field doc hlist hsize' (by omega)
  refine ⟨?_, ?_, fun t n hname hsize => ?_⟩
  · rw [hfield, if_neg fun h => sizeName_ne indexName h.2, if_pos ⟨rfl, rfl⟩]
  · rw [hfield, if_pos ⟨rfl, rfl⟩, hcounter]
  · rw [hfield, if_neg fun h => hsize (by rw [h.1, h.2]), if_neg fun h => hname (by rw [h.1, h.2])]

/-- The first document of an index. -/
theorem indexDocument_stores_first (doc : WValue) (hnone : s.field tenantId indexName = none) :
    Stores s (s.indexDocument tenantId indexName doc).2 tenantId indexName [doc] := by
  have hcount := count_ref s tenantId indexName
  rw [hnone, Option.isSome_none] at hcount
  simp only [indexDocument, hcount, Bool.false_eq_true, if_false]
  exact (stores_setTenant rfl fun _ _ => rfl).congr (field_touch s tenantId)
    (field_persistIndex _)

theorem clearIndex_stores (hsome : (s.field tenantId indexName).isSome = true) :
    Stores s (s.clearIndex tenantId indexName).2 tenantId indexName [] := by
  have hcount := (count_ref s tenantId indexName).trans hsome
  simp only [clearIndex, hcount, if_true]
  exact (stores_setTenant rfl fun _ _ => rfl).congr (field_touch s tenantId)
    (field_persistIndex _)

theorem clearIndex_field (hnone : ¬(s.field tenantId indexName).isSome = true) (t n : Bytes) :
    (s.clearIndex tenantId indexName).2.field t n = s.field t n := by
  have hcount := (count_ref s tenantId indexName).trans (Bool.eq_false_of_not_eq_true hnone)
  simp only [clearIndex, hcount, Bool.false_eq_true, if_false]
  exact field_touch s tenantId t n

/-! ## Updates -/

/-- The loop of an update replaces the documents that are selected, and counts them. -/
theorem foldlM_updateAt_eq {sel : Selection} (newDoc : WValue) (before docs after : List WValue)
    (hlength : (before ++ docs).length < 2 ^ 31) (ret : ℤ) : ∃ newDoc',
      (List.range' before.length docs.length).foldlM (updateAt sel)
        (.list (before ++ (docs ++ after)), newDoc, ret) =
      some (.list (before ++ (replaceSelected sel newDoc docs ++ after)), newDoc',
        ret + docs.countP (isSelected sel)) := by
  induction docs generalizing newDoc before ret with
  | nil => exact ⟨newDoc, by simp [replaceSelected]⟩
  | cons doc docs ih =>
    have hsmall : before.length < 2 ^ 31 := by
      rw [List.length_append] at hlength
      omega
    have hresized : (WValue.list (before ++ doc :: (docs ++ after))).resized before.length =
        some (before ++ doc :: (docs ++ after)) := by
      have hnone : before.length + 1 - (before ++ doc :: (docs ++ after)).length = 0 := by
        simp only [List.length_append, List.length_cons]
        omega
      rw [resized_list (by omega), hnone, List.replicate_zero, List.append_nil]
    have hhere : (before ++ doc :: (docs ++ after)).getD before.length .null = doc := by simp
    have hnext := fun newDoc ret doc' => ih newDoc (before ++ [doc'])
      (by simpa [Nat.add_assoc, Nat.add_comm 1] using hlength) ret
    simp only [List.append_assoc, List.singleton_append, List.length_append,
      List.length_singleton] at hnext
    rw [List.length_cons, List.range'_succ, List.foldlM_cons, updateAt, List.cons_append, hresized,
      Option.map_some, hhere, replaceSelected, List.countP_cons]
    split
    · next hsel =>
      obtain ⟨newDoc', hrest⟩ := hnext newDoc.moved (ret + 1) newDoc
      refine ⟨newDoc', ?_⟩
      have hset : (before ++ doc :: (docs ++ after)).set before.length newDoc =
          before ++ newDoc :: (docs ++ after) := by simp
      change (List.range' (before.length + 1) docs.length).foldlM (updateAt sel)
        (.list ((before ++ doc :: (docs ++ after)).set before.length newDoc), newDoc.moved,
          ret + 1) = _
      rw [hset, hrest]
      simp [add_assoc, add_comm]
    · next hsel =>
      obtain ⟨newDoc', hrest⟩ := hnext newDoc ret doc
      refine ⟨newDoc', ?_⟩
      change (List.range' (before.length + 1) docs.length).foldlM (updateAt sel)
        (.list (before ++ doc :: (docs ++ after)), newDoc, ret) = _
      rw [hrest]
      simp

theorem length_replaceSelected (sel : Selection) (newDoc : WValue) (docs : List WValue) :
    (replaceSelected sel newDoc docs).length = docs.length := by
  induction docs generalizing newDoc with
  | nil => rfl
  | cons doc docs ih =>
    rw [replaceSelected]
    split <;> rw [List.length_cons, ih, List.length_cons]

/-- The loop replaces the selected documents among those that the counter counts. -/
theorem updateLoop_eq {sel : Selection} (newDoc : WValue) {docs : List WValue} {k : ℕ}
    (hk : k ≤ docs.length) (hsmall : k < 2 ^ 31) :
    ∃ newDoc', updateLoop sel k (WValue.list docs) newDoc =
      some (WValue.list (replaceSelected sel newDoc (docs.take k) ++ docs.drop k), newDoc',
        ((docs.take k).countP (isSelected sel) : ℤ)) := by
  have hlength : (docs.take k).length = k := by rw [List.length_take, Nat.min_eq_left hk]
  obtain ⟨newDoc', h⟩ := @foldlM_updateAt_eq _ sel newDoc [] (docs.take k) (docs.drop k)
    (by rwa [List.nil_append, hlength]) 0
  refine ⟨newDoc', ?_⟩
  rw [updateLoop, List.range_eq_range']
  simpa [hlength] using h

omit [HashOrder] in
theorem count_of_field (h : (s.field t n).isSome = true) : s.index.count t = true := by
  cases htenant : s.index.field? t with
  | none =>
    rw [field, WValue.ref, htenant, Option.getD_none, WValue.field?_null] at h
    exact absurd h Bool.false_ne_true
  | some tenant => rw [WValue.count, htenant, Option.isSome_some]

omit [HashOrder] in
/-- The use of a name that is there changes no value, and otherwise inserts a null. -/
theorem field_setTenant_touch (s : ElasticSearch) (tenantId name t n : Bytes) :
    (s.setTenant tenantId ((s.index.ref tenantId).touch name)).field t n =
      if t = tenantId ∧ n = name then some ((s.field tenantId name).getD .null)
      else s.field t n := by
  rw [field_setTenant]
  by_cases ht : t = tenantId
  · subst ht
    rw [if_pos rfl, field?_touch]
    by_cases hn : n = name
    · rw [if_pos hn, if_pos ⟨rfl, hn⟩]
      rfl
    · rw [if_neg hn, if_neg fun h => hn h.2]
      rfl
  · rw [if_neg ht, if_neg fun h => ht h.1]

omit [HashOrder] in
/-- The counter that an update reads, which may be inserted as a null. -/
theorem ref_counter (s : ElasticSearch) (tenantId indexName : Bytes) :
    ((s.index.ref tenantId).touch (sizeName indexName)).ref (sizeName indexName) =
      (s.field tenantId (sizeName indexName)).getD .null := by
  apply ref_of_field?
  rw [field?_touch, if_pos rfl]
  rfl

omit [HashOrder] in
/-- An update finds the documents of an index that is there. -/
theorem ref_documents {docs : List WValue}
    (hlist : s.field tenantId indexName = some (.list docs)) :
    (!s.index.count tenantId || !(s.index.ref tenantId).count indexName) = false ∧
      ((s.index.ref tenantId).touch (sizeName indexName)).ref indexName = .list docs := by
  have hthere : (s.field tenantId indexName).isSome = true := by rw [hlist, Option.isSome_some]
  constructor
  · rw [count_of_field hthere]
    simpa [WValue.count, field] using hthere
  · apply ref_of_field?
    rw [field?_touch, if_neg (sizeName_ne indexName)]
    exact hlist

omit [HashOrder] in
/-- Looking up a counter that is there changes no value. -/
theorem field_touch_counter {v : WValue} (hv : s.field tenantId (sizeName indexName) = some v)
    (t n : Bytes) :
    (s.setTenant tenantId ((s.index.ref tenantId).touch (sizeName indexName))).field t n =
      s.field t n := by
  rw [field_setTenant_touch]
  split
  · next h => rw [h.1, h.2, hv, Option.getD_some]
  · rfl

/-- The number of documents that the counter of an index counts. -/
def counted (s : ElasticSearch) (tenantId indexName : Bytes) : Except Failure ℤ :=
  stoi (dump ((s.field tenantId (sizeName indexName)).getD .null))

/-- A counter that is read is there. -/
theorem field_of_counted {size : ℤ} (h : s.counted tenantId indexName = .ok size) :
    ∃ v, s.field tenantId (sizeName indexName) = some v := by
  cases hv : s.field tenantId (sizeName indexName) with
  | none =>
    rw [counted, hv, Option.getD_none, stoi_dump_null] at h
    cases h
  | some v => exact ⟨v, rfl⟩

/-- An update that returns has read the counter and has come to the end of its loop. -/
theorem counted_of_ok {docs : List WValue} {newDoc : WValue} {sel : Selection} {n : ℤ}
    (hlist : s.field tenantId indexName = some (.list docs))
    (hupdate : (s.updateDocument tenantId indexName newDoc sel).1 = .ok n) :
    ∃ size, s.counted tenantId indexName = .ok size ∧
      (size < 1 ∨ ∃ st, updateLoop sel size.toNat (.list docs) newDoc = some st) := by
  obtain ⟨hcount, hdocs⟩ := ref_documents hlist
  simp only [updateDocument, hcount, Bool.false_eq_true, if_false, ref_counter, hdocs] at hupdate
  unfold counted
  cases hstoi : stoi (dump ((s.field tenantId (sizeName indexName)).getD .null)) with
  | error e =>
    rw [hstoi] at hupdate
    cases hupdate
  | ok size =>
    refine ⟨size, rfl, ?_⟩
    by_cases hsize : size < 1
    · exact Or.inl hsize
    · cases hloop : updateLoop sel size.toNat (.list docs) newDoc with
      | none =>
        simp only [hstoi, if_neg hsize, hloop] at hupdate
        cases hupdate
      | some st => exact Or.inr ⟨st, rfl⟩

/-- An update of an index whose counter counts no document does nothing. -/
theorem updateDocument_empty {docs : List WValue} {size : ℤ} (newDoc : WValue) (sel : Selection)
    (hlist : s.field tenantId indexName = some (.list docs))
    (hcounted : s.counted tenantId indexName = .ok size) (hsize : size < 1) :
    (s.updateDocument tenantId indexName newDoc sel).1 = .ok 0 ∧
      ∀ t n, (s.updateDocument tenantId indexName newDoc sel).2.field t n = s.field t n := by
  obtain ⟨v, hv⟩ := field_of_counted hcounted
  unfold counted at hcounted
  simp only [updateDocument, (ref_documents hlist).1, Bool.false_eq_true, if_false, ref_counter,
    hcounted, if_pos hsize]
  exact ⟨trivial, field_touch_counter hv⟩

/-- An update stores what its loop has left of the documents that the counter counts. -/
theorem updateDocument_loop {docs : List WValue} {docs' newDoc' : WValue} {size ret : ℤ}
    {newDoc : WValue} {sel : Selection} (hlist : s.field tenantId indexName = some (.list docs))
    (hcounted : s.counted tenantId indexName = .ok size) (hsize : ¬size < 1)
    (hloop : updateLoop sel size.toNat (.list docs) newDoc = some (docs', newDoc', ret)) :
    (∀ n, (s.updateDocument tenantId indexName newDoc sel).1 = .ok n → n = ret) ∧
      (ret ≤ 0 → (s.updateDocument tenantId indexName newDoc sel).1 = .ok ret) ∧
      ∀ t n, (s.updateDocument tenantId indexName newDoc sel).2.field t n =
        if t = tenantId ∧ n = indexName then some docs' else s.field t n := by
  obtain ⟨v, hv⟩ := field_of_counted hcounted
  obtain ⟨hcount, hdocs⟩ := ref_documents hlist
  unfold counted at hcounted
  have hstored : ∀ t n, ((s.setTenant tenantId ((s.index.ref tenantId).touch
      (sizeName indexName))).setTenant tenantId (((s.index.ref tenantId).touch
        (sizeName indexName)).set indexName docs')).field t n =
      if t = tenantId ∧ n = indexName then some docs' else s.field t n := by
    intro t n
    have htouched := field_touch_counter hv t n
    rw [field_setTenant] at htouched ⊢
    by_cases ht : t = tenantId
    · rw [if_pos ht] at htouched ⊢
      rw [WValue.field?_set, htouched]
      simp only [ht, true_and]
    · rw [if_neg ht, if_neg fun h => ht h.1, field_setTenant, if_neg ht]
  simp only [updateDocument, hcount, Bool.false_eq_true, if_false, ref_counter, hcounted,
    if_neg hsize, hdocs, hloop]
  split
  · next hpos =>
    refine ⟨fun n hn => ?_, fun hle => absurd hpos (not_lt.mpr hle),
      fun t n => (field_persistIndex _ t n).trans (hstored t n)⟩
    obtain ⟨-, -, rfl⟩ := of_map_ok hn
    rfl
  · refine ⟨?_, fun _ => rfl, hstored⟩
    rintro n ⟨⟩
    rfl

/-- An update of an index that is in order replaces the documents that are selected. -/
theorem updateDocument_stores {docs : List WValue} (newDoc : WValue) (sel : Selection)
    (hlist : s.field tenantId indexName = some (.list docs))
    (hsize : s.field tenantId (sizeName indexName) = some (.number (Double.ofInt docs.length)))
    (hlength : docs.length < 2 ^ 31) :
    Stores s (s.updateDocument tenantId indexName newDoc sel).2 tenantId indexName
        (replaceSelected sel newDoc docs) ∧
      ∀ n, (s.updateDocument tenantId indexName newDoc sel).1 = .ok n →
        n = docs.countP (isSelected sel) := by
  have hcounted : s.counted tenantId indexName = .ok (docs.length : ℤ) := by
    rw [counted, hsize, Option.getD_some,
      stoi_dump_ofInt (show -2 ^ 31 ≤ (docs.length : ℤ) ∧ _ by omega)]
  have hlen := length_replaceSelected sel newDoc docs
  by_cases hempty : (docs.length : ℤ) < 1
  · obtain ⟨hresult, hfield⟩ := updateDocument_empty newDoc sel hlist hcounted hempty
    have hnil : docs = [] := List.eq_nil_of_length_eq_zero (by omega)
    subst hnil
    refine ⟨⟨(hfield _ _).trans hlist, (hfield _ _).trans hsize, fun t n _ _ => hfield t n⟩, ?_⟩
    intro n hn
    rw [hresult] at hn
    exact (Except.ok.inj hn).symm
  · obtain ⟨newDoc', hloop⟩ := @updateLoop_eq _ sel newDoc docs _ (le_refl _) hlength
    rw [List.take_length, List.drop_length, List.append_nil] at hloop
    obtain ⟨hresult, -, hfield⟩ := updateDocument_loop hlist hcounted hempty
      (by rwa [Int.toNat_natCast])
    refine ⟨⟨?_, ?_, fun t n hname _ => ?_⟩, hresult⟩
    · rw [hfield, if_pos ⟨rfl, rfl⟩]
    · rw [hfield, if_neg fun h => sizeName_ne indexName h.2.symm, hsize, hlen]
    · rw [hfield, if_neg fun h => hname (by rw [h.1, h.2])]

/-- An update under a name without a positive counter changes no value. It may insert a
null under the name of the counter. -/
theorem updateDocument_field (newDoc : WValue) (sel : Selection)
    (hsize : ∀ v ∈ s.field tenantId (sizeName indexName),
      v = .null ∨ (∃ l, v = .list l) ∨ v = .number (Double.ofInt 0)) (t n : Bytes) :
    (s.updateDocument tenantId indexName newDoc sel).2.field t n = s.field t n ∨
      s.field t n = none ∧
        (s.updateDocument tenantId indexName newDoc sel).2.field t n = some .null := by
  have htouched : (s.setTenant tenantId ((s.index.ref tenantId).touch
      (sizeName indexName))).field t n = s.field t n ∨ s.field t n = none ∧
      (s.setTenant tenantId ((s.index.ref tenantId).touch
        (sizeName indexName))).field t n = some .null := by
    rw [field_setTenant_touch]
    split
    · next h =>
      rw [h.1, h.2]
      cases s.field tenantId (sizeName indexName) with
      | none => exact Or.inr ⟨rfl, rfl⟩
      | some v => exact Or.inl rfl
    · exact Or.inl rfl
  have hnumber : stoi (dump ((s.field tenantId (sizeName indexName)).getD .null)) =
      .error .invalidArgument ∨
      stoi (dump ((s.field tenantId (sizeName indexName)).getD .null)) = .ok 0 := by
    cases hfield : s.field tenantId (sizeName indexName) with
    | none => exact Or.inl stoi_dump_null
    | some v =>
      rcases hsize v hfield with rfl | ⟨l, rfl⟩ | rfl
      · exact Or.inl stoi_dump_null
      · exact Or.inl (stoi_dump_list l)
      · exact Or.inr (stoi_dump_ofInt (by decide))
  unfold updateDocument
  split
  · exact Or.inl rfl
  · rcases hnumber with hnumber | hnumber <;> simp only [ref_counter, hnumber]
    · exact htouched
    · exact htouched

end

/-! ## Indexes that stay apart -/

theorem documentCount_eq_some {s : ElasticSearch} {i : Bytes × Bytes} {n : ℕ} :
    s.documentCount i = some n ↔ ∃ docs, s.field i.1 i.2 = some (.list docs) ∧
      s.field i.1 (sizeName i.2) = some (.number (Double.ofInt docs.length)) ∧
      docs.length = n := by
  unfold documentCount
  constructor
  · intro h
    split at h
    · next docs d hlist hsize =>
      split at h
      · next hd =>
        subst hd
        exact ⟨docs, hlist, hsize, Option.some.inj h⟩
      · cases h
    · cases h
  · rintro ⟨docs, hlist, hsize, rfl⟩
    rw [hlist, hsize]
    exact if_pos rfl

theorem IndexesHold.counted {w : ElasticSearch × Indexes} (hw : IndexesHold w) :
    ∀ i ∈ w.2, (w.1.documentCount i).isSome = true := by
  intro i hi
  obtain ⟨docs, hlist, hsize⟩ := hw i hi
  exact Option.isSome_iff_exists.mpr ⟨_, documentCount_eq_some.mpr ⟨docs, hlist, hsize, rfl⟩⟩

/-- Every index is in order, and the other values are nulls, lists or counters, which are
zero unless an index has them. -/
structure InOrder (w : ElasticSearch × Indexes) : Prop where
  index : ∀ i ∈ w.2, ∃ docs, w.1.field i.1 i.2 = some (.list docs) ∧
    w.1.field i.1 (sizeName i.2) = some (.number (Double.ofInt docs.length)) ∧
    docs.length < 2 ^ 31
  other : ∀ t n, ∀ v ∈ w.1.field t n, v = .null ∨ (∃ l, v = .list l) ∨
    v = .number (Double.ofInt 0) ∨ ∃ i ∈ w.2, i.1 = t ∧ n = sizeName i.2

section

variable {w : ElasticSearch × Indexes} {s' : ElasticSearch} {tenantId indexName : Bytes}
  {docs : List WValue}

theorem InOrder.holds (hw : InOrder w) : IndexesHold w := by
  intro i hi
  obtain ⟨docs, hlist, hsize, -⟩ := hw.index i hi
  exact ⟨docs, hlist, hsize⟩

/-- No index has the name of the counter of an index. -/
theorem InOrder.name_ne (hw : InOrder w) {i j : Bytes × Bytes} (hi : i ∈ w.2) (hj : j ∈ w.2)
    (htenant : j.1 = i.1) : i.2 ≠ sizeName j.2 := by
  intro heq
  obtain ⟨docs, hlist, -⟩ := hw.index i hi
  obtain ⟨docs', -, hsize, -⟩ := hw.index j hj
  rw [heq, ← htenant, hsize] at hlist
  cases hlist

/-- Documents are stored under a name that is not a counter and whose counter is not an
index: the other indexes keep their documents and all stay in order. -/
theorem InOrder.stores (hw : InOrder w) (hs' : Stores w.1 s' tenantId indexName docs)
    (hlength : docs.length < 2 ^ 31)
    (hname : ∀ i ∈ w.2, i.1 = tenantId → indexName ≠ sizeName i.2)
    (hsize : (tenantId, sizeName indexName) ∉ w.2) {made : Indexes}
    (hmade : ∀ i, i ∈ made → i = (tenantId, indexName) ∨ i ∈ w.2) (hkept : w.2 ⊆ made)
    (hcounted : docs = [] ∨ (tenantId, indexName) ∈ made) :
    (∀ i ∈ w.2, i ≠ (tenantId, indexName) → s'.field i.1 i.2 = w.1.field i.1 i.2) ∧
      InOrder (s', made) := by
  have hothers : ∀ i ∈ w.2, i ≠ (tenantId, indexName) →
      s'.field i.1 i.2 = w.1.field i.1 i.2 := fun i hi hne =>
    hs'.others i.1 i.2 hne fun heq => hsize (heq ▸ hi)
  refine ⟨hothers, ?_, ?_⟩
  · intro i hi
    by_cases hi' : i = (tenantId, indexName)
    · subst hi'
      exact ⟨docs, hs'.list, hs'.size, hlength⟩
    · have hi := (hmade i hi).resolve_left hi'
      obtain ⟨docs', hlist, hcounter, hlength'⟩ := hw.index i hi
      refine ⟨docs', (hothers i hi hi').trans hlist, ?_, hlength'⟩
      refine (hs'.others _ _ ?_ ?_).trans hcounter
      · intro heq
        obtain ⟨ht, hn⟩ := Prod.ext_iff.mp heq
        exact hname i hi ht hn.symm
      · intro heq
        obtain ⟨ht, hn⟩ := Prod.ext_iff.mp heq
        exact hi' (Prod.ext ht (sizeName_inj.mp hn))
  · intro t n v hv
    by_cases hn : (t, n) = (tenantId, indexName)
    · cases hn
      exact Or.inr (Or.inl ⟨docs, Option.some.inj (hv.symm.trans hs'.list)⟩)
    by_cases hn' : (t, n) = (tenantId, sizeName indexName)
    · cases hn'
      have hv := Option.some.inj (hv.symm.trans hs'.size)
      rcases hcounted with rfl | hcounted
      · exact Or.inr (Or.inr (Or.inl hv))
      · exact Or.inr (Or.inr (Or.inr ⟨_, hcounted, rfl, rfl⟩))
    · rcases hw.other t n v ((hs'.others t n hn hn').symm.trans hv) with h | h | h | ⟨i, hi, h⟩
      · exact Or.inl h
      · exact Or.inr (Or.inl h)
      · exact Or.inr (Or.inr (Or.inl h))
      · exact Or.inr (Or.inr (Or.inr ⟨i, hkept hi, h⟩))

variable [HashOrder]

/-- An update changes the documents of its own index only. -/
theorem InOrder.updateDocument (hw : InOrder w) (newDoc : WValue) (sel : Selection) :
    (∀ i ∈ w.2, i ≠ (tenantId, indexName) →
      (w.1.updateDocument tenantId indexName newDoc sel).2.field i.1 i.2 = w.1.field i.1 i.2) ∧
      InOrder ((w.1.updateDocument tenantId indexName newDoc sel).2, w.2) := by
  by_cases hi : (tenantId, indexName) ∈ w.2
  · obtain ⟨docs, hlist, hsize, hlength⟩ := hw.index _ hi
    have hlen := length_replaceSelected sel newDoc docs
    have hstores := (updateDocument_stores newDoc sel hlist hsize hlength).1
    refine hw.stores hstores (hlen ▸ hlength) (fun j hj hj' => hw.name_ne hi hj hj') ?_
      (fun _ => Or.inr) (List.Subset.refl _) (Or.inr hi)
    exact fun hsize => hw.name_ne hsize hi rfl rfl
  · have hfield := @updateDocument_field w.1 tenantId indexName _ newDoc sel
      fun v hv => by
        rcases hw.other _ _ v hv with h | h | h | ⟨i, hi', hi₁, hi₂⟩
        · exact Or.inl h
        · exact Or.inr (Or.inl h)
        · exact Or.inr (Or.inr h)
        · have heq : i = (tenantId, indexName) := Prod.ext hi₁ (sizeName_inj.mp hi₂).symm
          exact absurd (heq ▸ hi') hi
    have hsame : ∀ t n v, w.1.field t n = some v →
        (w.1.updateDocument tenantId indexName newDoc sel).2.field t n = some v := by
      intro t n v hv
      rcases hfield t n with h | ⟨h, -⟩
      · exact h.trans hv
      · rw [hv] at h
        cases h
    refine ⟨?_, ?_, ?_⟩
    · intro i hi' _
      obtain ⟨docs, hlist, -⟩ := hw.index i hi'
      rw [hlist, hsame _ _ _ hlist]
    · intro i hi'
      obtain ⟨docs, hlist, hsize, hlength⟩ := hw.index i hi'
      exact ⟨docs, hsame _ _ _ hlist, hsame _ _ _ hsize, hlength⟩
    · intro t n v hv
      rcases hfield t n with h | ⟨-, h⟩
      · exact hw.other t n v (h.symm.trans hv)
      · exact Or.inl (Option.some.inj (hv.symm.trans h))

/-- A call that keeps the indexes apart leaves them in order and the documents of the
others as they are. -/
theorem InOrder.watch (hw : InOrder w) {c : ElasticCall} (hc : KeepsIndexes w c) :
    LeavesOthers w c ∧ InOrder (watch w c) := by
  cases c with
  | indexDocument tenantId indexName doc =>
    have hmade : ∀ i, i ∈ (tenantId, indexName) :: w.2 → i = (tenantId, indexName) ∨ i ∈ w.2 :=
      fun i => List.mem_cons.mp
    rcases hc with ⟨n, hn, hbound⟩ | ⟨hnone, hsize⟩
    · obtain ⟨docs, hlist, hsize, rfl⟩ := documentCount_eq_some.mp hn
      have hname : ∀ i ∈ w.2, i.1 = tenantId → indexName ≠ sizeName i.2 := by
        rintro i hi rfl rfl
        obtain ⟨docs', -, hcounter, -⟩ := hw.index i hi
        rw [hlist] at hcounter
        cases hcounter
      refine hw.stores (indexDocument_stores doc hlist hsize hbound) ?_ hname ?_ hmade
        (List.subset_cons_self _ _) (Or.inr List.mem_cons_self)
      · rw [List.length_append, List.length_singleton]
        omega
      · intro hi
        obtain ⟨docs', hlist', -⟩ := hw.index _ hi
        rw [hsize] at hlist'
        cases hlist'
    · have hnone := Option.isNone_iff_eq_none.mp hnone
      refine hw.stores (indexDocument_stores_first doc hnone) ?_ ?_ hsize hmade
        (List.subset_cons_self _ _) (Or.inr List.mem_cons_self)
      · rw [List.length_singleton]
        omega
      · rintro i hi rfl rfl
        obtain ⟨docs', -, hcounter, -⟩ := hw.index i hi
        rw [hnone] at hcounter
        cases hcounter
  | clearIndex tenantId indexName =>
    by_cases hsome : (w.1.field tenantId indexName).isSome = true
    · exact hw.stores (clearIndex_stores hsome) (by rw [List.length_nil]; omega) (hc hsome).1
        (hc hsome).2 (fun _ => Or.inr) (List.Subset.refl _) (Or.inl rfl)
    · have hfield := clearIndex_field hsome
      refine ⟨fun i _ _ => hfield i.1 i.2, ?_, ?_⟩
      · intro i hi
        obtain ⟨docs, hlist, hsize, hlength⟩ := hw.index i hi
        exact ⟨docs, (hfield _ _).trans hlist, (hfield _ _).trans hsize, hlength⟩
      · exact fun t n v hv => hw.other t n v ((hfield t n).symm.trans hv)
  | updateDocument tenantId indexName newDoc sel => exact hw.updateDocument newDoc sel
  | deleteDocument tenantId indexName sel => exact hw.updateDocument (.object []) sel

/-- In every run whose calls keep the indexes apart, every index is in order in every state,
and each call leaves the documents of the other indexes as they are. -/
theorem indexes_independent {file : IndexFile} {calls : List ElasticCall}
    (hcalls : EachEvent ElasticSearch.watch KeepsIndexes (⟨.null, file⟩, []) calls) :
    (∀ done, done <+: calls → IndexesHold (runAll ElasticSearch.watch (⟨.null, file⟩, []) done)) ∧
      ∀ done c, done ++ [c] <+: calls →
        LeavesOthers (runAll ElasticSearch.watch (⟨.null, file⟩, []) done) c := by
  have hstart : InOrder (⟨.null, file⟩, []) :=
    ⟨fun _ hi => (by cases hi), fun _ _ _ hv => by cases hv⟩
  refine ⟨fun done hdone => ?_, fun done c hdone => ?_⟩
  · exact (runAll_of_eachEvent (fun _ _ hw hc => (hw.watch hc).2) hstart hcalls hdone).holds
  · exact runAll_event (I := InOrder) (fun _ _ hw hc => hw.watch hc) hstart hcalls hdone

end

end ElasticSearch

/-- Calls on the indexes `a` and `b` of a tenant. -/
def twoIndexes : List ElasticCall :=
  [.indexDocument (ascii "t") (ascii "a") .null, .indexDocument (ascii "t") (ascii "b") .null,
    .indexDocument (ascii "t") (ascii "a") .null,
    .deleteDocument (ascii "t") (ascii "a") ⟨[], 0, true, true⟩,
    .clearIndex (ascii "t") (ascii "b")]

/-- The theorem at a run on two indexes. -/
theorem indexes_independent_twoIndexes :
    (∀ done, done <+: twoIndexes → ElasticSearch.IndexesHold
      (runAll (@ElasticSearch.watch .insertion) (⟨.null, IndexFile.openFile []⟩, []) done)) ∧
      ∀ done c, done ++ [c] <+: twoIndexes → @ElasticSearch.LeavesOthers .insertion
        (runAll (@ElasticSearch.watch .insertion) (⟨.null, IndexFile.openFile []⟩, []) done) c :=
  @ElasticSearch.indexes_independent .insertion _ _ (by decide +kernel)

/-- The first document of the index `a` replaces the documents of the index `a_size`. -/
theorem not_indexesHold_size : ¬ElasticSearch.IndexesHold
    (runAll (@ElasticSearch.watch .insertion) (⟨.null, IndexFile.openFile []⟩, [])
      [.indexDocument (ascii "t") (ascii "a_size") .null,
        .indexDocument (ascii "t") (ascii "a") .null]) :=
  mt ElasticSearch.IndexesHold.counted (by decide +kernel)

end Quarks
