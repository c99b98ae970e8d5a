import Quarks.Json.Fields
import Quarks.Scan
import Quarks.Search.IndexFile
import Quarks.Search.NearMatch

/-!
# The document index

`ElasticSearch` keeps its documents in one JSON object: for each tenant an object with a
list of documents under the name of each index and their number under that name followed
by `_size`. Every change of the index is written to its file by `persistIndex`.
-/

namespace Quarks

namespace WValue

/-- The value that `w[name]` refers to. -/
def ref (w : WValue) (name : Bytes) : WValue := (w.field? name).getD .null

/-- `w` after the use of `w[name]`, which inserts a null if the name is absent. -/
def touch (w : WValue) (name : Bytes) : WValue := w.set name (w.ref name)

/-- `wvalue::count`, as a truth value. -/
def count (w : WValue) (name : Bytes) : Bool := (w.field? name).isSome

/-- The elements of `w` after the use of `w[index]`, which makes `w` a list that is long
enough. The index and its successor are unsigned; `none` is an access past the end. -/
def resized (w : WValue) (index : ℕ) : Option (List WValue) :=
  let l := match w with
    | .list l => l
    | _ => []
  let l := l ++ List.replicate ((index + 1) % 2 ^ 32 - l.length) .null
  if index < l.length then some l else none

/-- What is left of a value that has been moved: its type and its number. -/
def moved : WValue → WValue
  | .string _ => .string []
  | .list _ => .list []
  | .object _ => .object []
  | w => w

end WValue

/-- The index and its file. -/
structure ElasticSearch where
  index : WValue
  file : IndexFile

/-- The arguments of an update or a deletion that select documents. -/
structure Selection where
  conditions : List (Bytes × Bytes)
  fuzziness : ℤ
  must : Bool
  ignoreCase : Bool

/-- The name of the number of documents of an index. -/
def sizeName (indexName : Bytes) : Bytes := indexName ++ ascii "_size"

namespace ElasticSearch

variable [HashOrder]

/-- `persistIndex`. Writing past the end of the file is undefined. -/
def persistIndex (s : ElasticSearch) : Except Failure Unit × ElasticSearch :=
  match s.file.persistIndex s.index with
  | some file => (.ok (), { s with file := file })
  | none => (.error .undefined, s)

omit [HashOrder] in
/-- `index[tenant_id]` is replaced. -/
def setTenant (s : ElasticSearch) (tenantId : Bytes) (tenant : WValue) : ElasticSearch :=
  { s with index := s.index.set tenantId tenant }

/-- The part of `indexDocument` for an index that is there already. -/
def appendDocument (s : ElasticSearch) (tenantId indexName : Bytes) (doc : WValue) :
    Except Failure Unit × ElasticSearch :=
  let tenant := (s.index.ref tenantId).touch (sizeName indexName)
  match stoi (dump (tenant.ref (sizeName indexName))) with
  | .error e => (.error e, s.setTenant tenantId tenant)
  | .ok size =>
    let position := (size % 2 ^ 32).toNat
    match (tenant.ref indexName).resized position with
    | none => (.error .undefined, s.setTenant tenantId tenant)
    | some docs =>
      let tenant := tenant.set indexName (.list (docs.set position doc))
      (s.setTenant tenantId
        (tenant.set (sizeName indexName) (.number (Double.ofInt (int32 (size + 1)))))).persistIndex

/-- `indexDocument`. -/
def indexDocument (s : ElasticSearch) (tenantId indexName : Bytes) (doc : WValue) :
    Except Failure Unit × ElasticSearch :=
  let s := { s with index := s.index.touch tenantId }
  let tenant := s.index.ref tenantId
  if tenant.count indexName then s.appendDocument tenantId indexName doc
  else
    let tenant := tenant.set indexName (.list [doc])
    (s.setTenant tenantId
      (tenant.set (sizeName indexName) (.number (Double.ofInt 1)))).persistIndex

/-- `clearIndex`: whether the index was there. -/
def clearIndex (s : ElasticSearch) (tenantId indexName : Bytes) :
    Except Failure Bool × ElasticSearch :=
  let s := { s with index := s.index.touch tenantId }
  let tenant := s.index.ref tenantId
  if tenant.count indexName then
    let tenant := tenant.set indexName (.list [])
    let r := (s.setTenant tenantId
      (tenant.set (sizeName indexName) (.number (Double.ofInt 0)))).persistIndex
    (r.1.map fun _ => true, r.2)
  else (.ok false, s)

/-- Whether a document meets a condition, a name and a text. -/
def meets (sel : Selection) (doc : WValue) (condition : Bytes × Bytes) : Bool :=
  doc.count condition.1 &&
    (if sel.ignoreCase then isNearlyMatchedIgnoreCase else isNearlyMatched)
      (dump (doc.ref condition.1)) condition.2 sel.fuzziness

/-- Whether a document is selected. -/
def isSelected (sel : Selection) (doc : WValue) : Bool :=
  let matchCount := sel.conditions.countP (meets sel doc)
  (sel.must && matchCount = sel.conditions.length) || (!sel.must && 0 < matchCount)

/-- One turn of the loop of `updateDocument`, on the documents, the new document and the
number of documents replaced. The new document is moved to the first of them. -/
def updateAt (sel : Selection) (st : WValue × WValue × ℤ) (i : ℕ) : Option (WValue × WValue × ℤ) :=
  (st.1.resized i).map fun docs =>
    if isSelected sel (docs.getD i .null) then
      (.list (docs.set i st.2.1), st.2.1.moved, st.2.2 + 1)
    else (.list docs, st.2)

/-- The loop of `updateDocument`. -/
def updateLoop (sel : Selection) (size : ℕ) (docs newDoc : WValue) :
    Option (WValue × WValue × ℤ) :=
  (List.range size).foldlM (updateAt sel) (docs, newDoc, 0)

/-- `updateDocument`: the number of documents replaced. -/
def updateDocument (s : ElasticSearch) (tenantId indexName : Bytes) (newDoc : WValue)
    (sel : Selection) : Except Failure ℤ × ElasticSearch :=
  if !s.index.count tenantId || !(s.index.ref tenantId).count indexName then (.ok 0, s)
  else
    let tenant := (s.index.ref tenantId).touch (sizeName indexName)
    let s := s.setTenant tenantId tenant
    match stoi (dump (tenant.ref (sizeName indexName))) with
    | .error e => (.error e, s)
    | .ok size =>
      if size < 1 then (.ok 0, s)
      else match updateLoop sel size.toNat (tenant.ref indexName) newDoc with
        | none => (.error .undefined, s)
        | some (docs, _, ret) =>
          let s := s.setTenant tenantId (tenant.set indexName docs)
          if 0 < ret then
            let r := s.persistIndex
            (r.1.map fun _ => ret, r.2)
          else (.ok ret, s)

/-- `deleteDocument`. -/
def deleteDocument (s : ElasticSearch) (tenantId indexName : Bytes) (sel : Selection) :
    Except Failure ℤ × ElasticSearch :=
  s.updateDocument tenantId indexName (.object []) sel

omit [HashOrder] in
/-- Whether a document that is searched meets a condition. -/
def meetsText (sel : Selection) (doc : RValue) (condition : Bytes × Bytes) :
    Except Failure Bool := do
  if ← doc.has condition.1 then
    let value ← (← doc.field condition.1).s
    return (if sel.ignoreCase then isNearlyMatchedIgnoreCase else isNearlyMatched)
      value condition.2 sel.fuzziness
  else return false

omit [HashOrder] in
/-- Whether a document that is searched is found. -/
def isFound (sel : Selection) (doc : RValue) : Except Failure Bool := do
  let matchCount := (← sel.conditions.mapM (meetsText sel doc)).countP id
  return (sel.must && matchCount = sel.conditions.length) || (!sel.must && 0 < matchCount)

omit [HashOrder] in
/-- The loop of `searchMultiple` over the documents. -/
def searchDocs (sel : Selection) : List RValue → Except Failure (List WValue)
  | [] => return []
  | doc :: docs => do
    let results ← if ← isFound sel doc then pure [← WValue.ofRValue doc] else pure []
    return results ++ (← searchDocs sel docs)

/-- `searchMultiple`: the documents are printed and loaded before they are searched. -/
def searchMultiple (s : ElasticSearch) (tenantId indexName : Bytes) (sel : Selection) :
    Except Failure (List WValue) := do
  if !s.index.count tenantId || !(s.index.ref tenantId).count indexName then return []
  let availableDocs := dump ((s.index.ref tenantId).ref indexName)
  let docs ← checked (load availableDocs)
  searchDocs sel (← docs.elements)

end ElasticSearch

/-- The calls that change the index. -/
inductive ElasticCall
  | indexDocument (tenantId indexName : Bytes) (doc : WValue)
  | clearIndex (tenantId indexName : Bytes)
  | updateDocument (tenantId indexName : Bytes) (newDoc : WValue) (sel : Selection)
  | deleteDocument (tenantId indexName : Bytes) (sel : Selection)

/-- The index after a call. -/
def ElasticSearch.step [HashOrder] (s : ElasticSearch) : ElasticCall → ElasticSearch
  | .indexDocument tenantId indexName doc => (s.indexDocument tenantId indexName doc).2
  | .clearIndex tenantId indexName => (s.clearIndex tenantId indexName).2
  | .updateDocument tenantId indexName newDoc sel =>
    (s.updateDocument tenantId indexName newDoc sel).2
  | .deleteDocument tenantId indexName sel => (s.deleteDocument tenantId indexName sel).2

end Quarks
