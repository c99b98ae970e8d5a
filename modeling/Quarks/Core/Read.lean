import Quarks.Core.Increment

/-!
# Reading values

Point reads, and the listings over the database or the cache. A listing hands each
entry that it takes to a function that appends to its results.
-/

namespace Quarks

open Basis

/-! ## Point reads -/

/-- `crow::json::wvalue out = crow::json::load(value)`. -/
def loadValue (value : Bytes) : Except Failure WValue :=
  (checked (load value)).bind WValue.ofRValue

/-- `Core::getJson`: the value, if the key is found. The key is looked up as in `get`. -/
def getJson (c : Config) (key : Bytes) : CoreM (Option WValue) := do
  match ← get c key with
  | some value => return some (← ofExcept (loadValue value))
  | none => return none

/-- An element of the results with the key of the entry. -/
def keyed (key : Bytes) (value : WValue) : WValue :=
  (WValue.null.set (ascii "value") value).set (ascii "key") (.string key)

/-- The loop of `Core::getList`, with the counter as it was before: whether it met
strings only, and what it found for those in the window. -/
def listLoop {α : Type} (lookup : Bytes → CoreM (Option α)) (win : Window) :
    List RValue → ℤ → CoreM (Bool × List α)
  | [], _ => return (true, [])
  | key :: keys, i => do
    let item ← catchRuntime
      (do
        let s ← ofExcept key.s
        return some (← lookup s))
      (return none)
    match item with
    | none => return (false, [])
    | some found => do
      let i := int32 (i + 1)
      let r ← listLoop lookup win keys i
      return (r.1, (if win.takes i then found.toList else []) ++ r.2)

/-- The loop of `Core::getList` over its arguments, which have to be a list. -/
def listArgs {α : Type} (lookup : Bytes → CoreM (Option α)) (win : Window) (args : RValue) :
    CoreM (Bool × List α) :=
  match args.elements with
  | .ok keys => listLoop lookup win keys (-1)
  | .error _ => return (false, [])

/-- `Core::getList` into a vector. -/
def getList (c : Config) (args : RValue) (win : Window) : CoreM (Bool × List WValue) := do
  if c.dbOk then
    listArgs (fun s => do return (← getJson c s).map (keyed s)) win args
  else return (true, [])

/-- One element of a listing's text, without the comma after it. -/
def textItem (e : Entry) : Bytes :=
  ascii "\x7b\"key\":\"" ++ e.1 ++ ascii "\",\"value\":" ++ e.2 ++ ascii "\x7d"

/-- The text of a listing. -/
def resultText (items : List Entry) : Bytes :=
  ascii "\x7b\"result\":[" ++ joinComma (items.map textItem) ++ ascii "]\x7d"

/-- `Core::getList` into a string that holds `out` before. -/
def getListText (c : Config) (args : RValue) (out : Bytes) (win : Window) :
    CoreM (Bool × Bytes) := do
  if c.dbOk then
    let r ← listArgs (fun s => do return (← get c s).map fun value => (s, value)) win args
    if r.1 then return (true, resultText r.2)
    return (false, (resultText r.2).dropLast ++ ascii ",\"error\":\"runtime error\"\x7d")
  else return (true, out)

/-! ## The values of a listing -/

/-- The value that a listing gives for a stored text: a text that is no JSON document
is read as the only element of a list of strings. -/
def entryValue (value : Bytes) : Except Failure WValue :=
  match load value with
  | some x => WValue.ofRValue x
  | none => loadValue (ascii "[\"" ++ value ++ ascii "\"]")

/-- What `getKeys` appends for an entry, and whether its value could be read. After the
text has been appended as an error, the key follows as an element of its own. -/
def keyedItems (e : Entry) : Except Failure (Bool × List WValue) :=
  match entryValue e.2 with
  | .ok v => .ok (true, [keyed e.1 v])
  | .error f =>
    if f.isRuntimeError then
      .ok (false, [WValue.null.set (ascii "error") (.string e.2),
        WValue.null.set (ascii "key") (.string e.1)])
    else .error f

/-- What `getAll` appends for an entry, and whether its value could be read. -/
def valueItems (e : Entry) : Except Failure (Bool × List WValue) :=
  match entryValue e.2 with
  | .ok v => .ok (true, [v])
  | .error f =>
    if f.isRuntimeError then .ok (false, [WValue.null.set (ascii "error") (.string e.2)])
    else .error f

/-- Append for one entry after the other. -/
def collect (items : Entry → Except Failure (Bool × List WValue)) :
    List Entry → Except Failure (Bool × List WValue)
  | [] => .ok (true, [])
  | e :: es => do
    let r ← items e
    let rest ← collect items es
    return (r.1 && rest.1, r.2 ++ rest.2)

/-! ## Listings of the database -/

/-- The common frame of the listings by pattern: `list` gets the content of the database
and `none` is returned where the function returns `false` before it starts. -/
def scanDb {α : Type} (c : Config) (wild : Bytes) (list : Store → Except Failure α) :
    CoreM (Option α) := do
  if c.dbOk && !startsWithStar wild then
    let store ← dbIterate
    return some (← ofExcept (list store))
  return none

/-- `Core::getAll`. -/
def getAll (c : Config) (wild : Bytes) (win : Window) : CoreM (Bool × List WValue) := do
  let r ← scanDb c wild fun store => collect valueItems (listed store wild win)
  return r.getD (false, [])

/-- `Core::iter`. -/
def iter (c : Config) (win : Window) : CoreM (Bool × List WValue) := do
  if c.dbOk then
    let store ← dbIterate
    ofExcept (collect keyedItems (scan (fun _ => true) win store.seekToFirst.forward))
  else return (false, [])

/-- `Core::iterReversed`. -/
def iterReversed (c : Config) (win : Window) : CoreM (Bool × List WValue) := do
  if c.dbOk then
    let store ← dbIterate
    ofExcept (collect keyedItems (scan (fun _ => true) win store.seekToLast.backward))
  else return (false, [])

/-! ## Listings of the cache -/

/-- The loop of `_GetCachedKeys`, with the counter as it was before. Each entry comes with
a mark that tells whether it is the one `itEnd` points to; `atEnd` is what becomes
of the loop when it has met all entries. -/
def cachedLoop (accept : Entry → Bool) (win : Window) (atEnd : Except Failure (List Entry)) :
    ℤ → List (Entry × Bool) → Except Failure (List Entry)
  | _, [] => atEnd
  | i, (e, last) :: es =>
    if accept e then
      let i := int32 (i + 1)
      let rest := if win.stops i || last then .ok [] else cachedLoop accept win atEnd i es
      if win.takes i then rest.map (e :: ·) else rest
    else cachedLoop accept win atEnd i es

/-- Mark the entry at a position, counting from `start`. -/
def markAt (mark start : ℕ) (es : List Entry) : List (Entry × Bool) :=
  (es.zipIdx start).map fun p => (p.1, p.2 = mark)

/-- The entries that `_GetCachedKeys` takes. Stepping back from `begin()` and writing
before the start of an empty prefix are undefined. -/
def cachedTaken (reversed : Bool) (cache : Store) (wild : Bytes) (win : Window) :
    Except Failure (List Entry) :=
  let pre := starPrefix wild
  match firstAfterPrefix pre with
  | none => .error .undefined
  | some after =>
    let prefixedBegin := (cache.below pre).length
    let prefixedEnd := (cache.below after).length
    if prefixedEnd = 0 then .error .undefined
    else
      let met :=
        if reversed then (markAt prefixedBegin 0 (cache.below after)).reverse
        else markAt (prefixedEnd - 1) prefixedBegin (cache.above pre)
      let atEnd := if reversed then .error .undefined else .ok []
      match met with
      | [] => .ok []
      | (first, _) :: _ =>
        -- if first entry doesn't match return
        if accepts wild first then cachedLoop (accepts wild) win atEnd (-1) met else .ok []

/-- `_GetCachedKeys` into a vector: its result and what it appends. -/
def getCachedKeys (countOnly reversed : Bool) (cache : Store) (wild : Bytes) (win : Window) :
    Except Failure (ℤ × List WValue) :=
  if startsWithStar wild then .ok (0, [])
  else do
    let taken ← cachedTaken reversed cache wild win
    let results ← if countOnly then pure [] else (collect keyedItems taken).map Prod.snd
    return (int32 taken.length, results)

/-- `_GetCachedKeys` into a string that holds `out` before. Where entries are only counted, the
bracket is overwritten that opens the list. -/
def getCachedKeysText (countOnly reversed : Bool) (cache : Store) (wild out : Bytes)
    (win : Window) : Except Failure (ℤ × Bytes) :=
  if startsWithStar wild then .ok (0, out)
  else do
    let taken ← cachedTaken reversed cache wild win
    return (int32 taken.length,
      if countOnly && !taken.isEmpty then ascii "\x7b\"result\":]\x7d" else resultText taken)

/-! ## Listings of either -/

/-- `Core::getKeys` into a vector. -/
def getKeys (c : Config) (wild : Bytes) (win : Window) : CoreM (Bool × List WValue) := do
  if c.cacheEnabled then
    let cache ← cacheIterate
    let r ← ofExcept (getCachedKeys false false cache wild win)
    return (true, r.2)
  let r ← scanDb c wild fun store => collect keyedItems (listed store wild win)
  return r.getD (false, [])

/-- `Core::getKeys` into a string that holds `out` before. -/
def getKeysText (c : Config) (wild out : Bytes) (win : Window) : CoreM (Bool × Bytes) := do
  if c.cacheEnabled then
    let cache ← cacheIterate
    let r ← ofExcept (getCachedKeysText false false cache wild out win)
    return (true, r.2)
  let r ← scanDb c wild fun store => .ok (resultText (listed store wild win))
  match r with
  | some text => return (true, text)
  | none => return (false, out)

/-- The entries that the uncached `getKeysReversed` takes. -/
def listedReversed (store : Store) (wild : Bytes) (win : Window) : Except Failure (List Entry) :=
  match firstAfterPrefix (starPrefix wild) with
  | none => .error .undefined
  | some after => .ok (scan (accepts wild) win (backwardRange store (starPrefix wild) after))

/-- `Core::getKeysReversed` into a vector. -/
def getKeysReversed (c : Config) (wild : Bytes) (win : Window) :
    CoreM (Bool × List WValue) := do
  if c.cacheEnabled then
    let cache ← cacheIterate
    let r ← ofExcept (getCachedKeys false true cache wild win)
    return (true, r.2)
  let r ← scanDb c wild fun store => (listedReversed store wild win).bind (collect keyedItems)
  return r.getD (false, [])

/-- `Core::getKeysReversed` into a string that holds `out` before. -/
def getKeysReversedText (c : Config) (wild out : Bytes) (win : Window) :
    CoreM (Bool × Bytes) := do
  if c.cacheEnabled then
    let cache ← cacheIterate
    let r ← ofExcept (getCachedKeysText false true cache wild out win)
    return (true, r.2)
  let r ← scanDb c wild fun store => (listedReversed store wild win).map resultText
  match r with
  | some text => return (true, text)
  | none => return (false, out)

/-- `Core::getCount` into a number that is `out` before. -/
def getCount (c : Config) (wild : Bytes) (out : ℤ) (win : Window) : CoreM (Bool × ℤ) := do
  if c.cacheEnabled then
    let cache ← cacheIterate
    let r ← ofExcept (getCachedKeys true false cache wild win)
    return (true, r.1)
  let r ← scanDb c wild fun store => .ok ((listed store wild win).length : ℤ)
  match r with
  | some count => return (true, count)
  | none => return (false, if c.dbOk then 0 else out)

/-! ## Searching -/

section

variable [HashOrder]

/-- What `Core::searchJson` reads of `include`: `mapField` and `mapAs`. The fields `sortby`
and `des` are read too, but nothing is sorted. -/
def includeMap (args : RValue) : Except Failure (Bytes × Bytes) := do
  if ← args.has (ascii "include") then
    let sFilter := dump (← WValue.ofRValue (← args.field (ascii "include")))
    let filter ← checked (load sFilter)
    let map ← if ← filter.has (ascii "map") then do
        let map ← filter.field (ascii "map")
        pure (← (← map.field (ascii "field")).s, ← (← map.field (ascii "as")).s)
      else pure ([], ascii "_includeid")
    if ← filter.has (ascii "sortby") then
      let _ ← (← filter.field (ascii "sortby")).s
    if ← filter.has (ascii "des") then
      let _ ← (← filter.field (ascii "des")).b
    return map
  else return ([], ascii "_includeid")

end

/-- The value that an entry is joined with: the one stored under the text of its field. -/
def joinedValue (c : Config) (mapField : Bytes) (e : Entry) : CoreM (Option WValue) := do
  let x ← ofExcept (checked (load e.2))
  let mapKey ← ofExcept ((x.field (cstr mapField)).bind RValue.s)
  getJson c mapKey

/-- What `Core::searchJson` appends for an entry. After the text has been appended as an
error, what is left of the moved element is appended too. -/
def searchItems (c : Config) (mapField mapAs : Bytes) (e : Entry) : CoreM (List WValue) :=
  match entryValue e.2 with
  | .ok v => do
    if mapField = [] then return [keyed e.1 v]
    let joined ← catchRuntime (do return some (← joinedValue c mapField e)) (return none)
    match joined with
    | some (some mapJson) => return [keyed e.1 (v.set mapAs mapJson)]
    | some none => return [keyed e.1 v]
    | none => return [(keyed e.1 v).set (ascii "error") (.string e.2), .object []]
  | .error f => do
    if f.isRuntimeError then
      return [WValue.null.set (ascii "error") (.string e.2), .object []]
    throw f

/-- Append for one entry after the other. -/
def searchLoop (c : Config) (mapField mapAs : Bytes) : List Entry → CoreM (List WValue)
  | [] => return []
  | e :: es => do
    let r ← searchItems c mapField mapAs e
    let rest ← searchLoop c mapField mapAs es
    return r ++ rest

/-- `Core::searchJson`. -/
def searchJson [HashOrder] (c : Config) (args : RValue) (win : Window) :
    CoreM (Bool × List WValue) := do
  if c.dbOk then
    -- `crow::json::dump(args)` for the log
    let _ ← ofExcept (WValue.ofRValue args)
    let wild ← ofExcept ((args.field (ascii "keys")).bind RValue.s)
    let map ← ofExcept (includeMap args)
    if startsWithStar wild then return (false, [])
    let store ← dbIterate
    return (true, ← searchLoop c map.1 map.2 (listed store wild win))
  else return (false, [])

/-! ## The text of a listing -/

theorem length_joinComma (ts : List Bytes) :
    (joinComma ts).length = (ts.map fun t => t.length + 1).sum - 1 := by
  induction ts with
  | nil => rfl
  | cons t ts ih =>
    cases ts with
    | nil => simp [joinComma]
    | cons t' ts =>
      simp only [joinComma, List.length_append, List.length_cons, ih, List.map_cons, List.sum_cons]
      omega

/-- Leaving out entries makes a text shorter. -/
theorem sum_textItem_sublist {es es' : List Entry} (h : es.Sublist es')
    (hsum : (es'.map fun e => (textItem e).length + 1).sum ≤
      (es.map fun e => (textItem e).length + 1).sum) : es = es' := by
  have hle : ∀ {es es' : List Entry}, es.Sublist es' →
      (es.map fun e => (textItem e).length + 1).sum ≤
        (es'.map fun e => (textItem e).length + 1).sum := by
    intro es es' h
    induction h with
    | slnil => exact le_rfl
    | cons e h ih => exact ih.trans (by simp)
    | cons_cons e h ih => simpa using ih
  induction h with
  | slnil => rfl
  | cons e h ih =>
    have := hle h
    simp only [List.map_cons, List.sum_cons] at hsum
    omega
  | cons_cons e h ih =>
    simp only [List.map_cons, List.sum_cons] at hsum
    rw [ih (by omega)]

/-- Some of the entries have the text of all of them only if they are all of them. -/
theorem resultText_sublist {es es' : List Entry} (h : es.Sublist es')
    (htext : resultText es = resultText es') : es = es' := by
  refine sum_textItem_sublist h ?_
  have hlen := congrArg List.length htext
  simp only [resultText, List.length_append, length_joinComma, List.map_map,
    Function.comp_def] at hlen
  cases es' with
  | nil => simp
  | cons e es' =>
    have hitem : 1 ≤ (textItem e).length := by simp [textItem, ascii]
    simp only [List.map_cons, List.sum_cons] at hlen ⊢
    omega

/-! ## What the listings give -/

section

variable {faults : Faults} {n : Node} {c : Config} {wild : Bytes} {win : Window}

theorem bind_ok_right {α : Type} (x : Except Failure α) : x.bind .ok = x := by cases x <;> rfl

/-- A listing by pattern that is refused gives nothing. -/
theorem scanDb_refused {α : Type} {l : Store → Except Failure α}
    (h : ¬(c.dbOk = true ∧ startsWithStar wild = false)) :
    Yields faults n (scanDb c wild l) (.ok none) := by
  unfold scanDb
  rw [if_neg (by simpa using h)]
  exact Yields.pure none

/-- A listing by pattern goes on with what it lists from the content of the database. -/
theorem scanDb_yields {α β : Type} {l : Store → Except Failure α} {f : Option α → CoreM β}
    {g : α → Except Failure β} (hdb : c.dbOk = true) (hstar : startsWithStar wild = false)
    (hf : ∀ a, Yields faults n (f (some a)) (g a)) :
    Yields faults n (scanDb c wild l >>= f) ((l n.db).bind g) := by
  have hscan : Yields faults n (scanDb c wild l) ((l n.db).bind fun a => .ok (some a)) := by
    unfold scanDb
    rw [hdb, hstar]
    refine Yields.bind_ok Yields.dbIterate ?_
    exact Yields.bind (Yields.ofExcept _) fun a _ => Yields.pure _
  cases hl : l n.db with
  | ok a =>
    rw [hl] at hscan
    exact Yields.bind_ok hscan (hf a)
  | error e =>
    rw [hl] at hscan
    exact Yields.bind_error hscan

theorem getAll_yields (hdb : c.dbOk = true) (hstar : startsWithStar wild = false) :
    Yields faults n (getAll c wild win) (collect valueItems (listed n.db wild win)) := by
  rw [← bind_ok_right (collect valueItems _)]
  exact scanDb_yields hdb hstar Yields.pure

theorem iter_yields (hdb : c.dbOk = true) : Yields faults n (iter c win)
    (collect keyedItems (scan (fun _ => true) win n.db.entries)) := by
  unfold iter
  rw [hdb]
  exact Yields.bind_ok Yields.dbIterate (by simpa using Yields.ofExcept _)

theorem iterReversed_yields (hdb : c.dbOk = true) : Yields faults n (iterReversed c win)
    (collect keyedItems (scan (fun _ => true) win n.db.entries.reverse)) := by
  unfold iterReversed
  rw [hdb]
  exact Yields.bind_ok Yields.dbIterate (by simpa using Yields.ofExcept _)

section

variable (hcache : c.cacheEnabled = false) (hdb : c.dbOk = true)
  (hstar : startsWithStar wild = false)
include hcache hdb hstar

theorem getKeys_yields : Yields faults n (getKeys c wild win)
    (collect keyedItems (listed n.db wild win)) := by
  unfold getKeys
  rw [hcache, ← bind_ok_right (collect keyedItems _)]
  exact scanDb_yields hdb hstar Yields.pure

theorem getKeysText_yields {out : Bytes} : Yields faults n (getKeysText c wild out win)
    (.ok (true, resultText (listed n.db wild win))) := by
  unfold getKeysText
  rw [hcache]
  exact scanDb_yields (l := fun store => .ok (resultText (listed store wild win)))
    (g := fun text => .ok (true, text)) hdb hstar fun _ => Yields.pure _

theorem getCount_yields {out : ℤ} : Yields faults n (getCount c wild out win)
    (.ok (true, (listed n.db wild win).length)) := by
  unfold getCount
  rw [hcache]
  exact scanDb_yields (l := fun store => .ok ((listed store wild win).length : ℤ))
    (g := fun count => .ok (true, count)) hdb hstar fun _ => Yields.pure _

theorem getKeysReversed_yields : Yields faults n (getKeysReversed c wild win)
    ((listedReversed n.db wild win).bind (collect keyedItems)) := by
  unfold getKeysReversed
  rw [hcache, ← bind_ok_right (Except.bind _ (collect keyedItems))]
  exact scanDb_yields hdb hstar Yields.pure

theorem getKeysReversedText_yields {out : Bytes} :
    Yields faults n (getKeysReversedText c wild out win)
      (((listedReversed n.db wild win).map resultText).bind fun text => .ok (true, text)) := by
  unfold getKeysReversedText
  rw [hcache]
  exact scanDb_yields hdb hstar fun _ => Yields.pure _

end

end

end Quarks
