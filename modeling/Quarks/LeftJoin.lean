import Quarks.FollowingKeys
import Mathlib.Data.List.Permutation

/-!
# The left join of `searchJson`

`searchJson` lists the entries that a pattern selects and gives each of them, in an extra
field, the value stored under the key that one of its fields names. It reads that field in a
block whose handler appends to the results, after which the loop appends once more: an entry
without the field, or with a field that is no string, takes up two elements.
-/

namespace Quarks

open Basis

/-! ## The join -/

/-- The text stored under the key that a field of a value names. -/
def namedText (store : Store) (field : Bytes) (value : WValue) : Option Bytes :=
  match value.field? field with
  | some (.string key) => store.find? key
  | _ => none

/-- A value with the one that its field names, in an extra field. -/
def joinedWith (store : Store) (field extra : Bytes) (value : WValue) : WValue :=
  match namedText store field value with
  | some text => value.set extra (parsedValue text)
  | none => value

/-- The element of a left join for an entry. -/
def joinedEntry (store : Store) (field extra : Bytes) (e : Entry) : WValue :=
  keyed e.1 (joinedWith store field extra (parsedValue e.2))

/-- The arguments give a pattern and a map for the join, and ask for no sorting. -/
structure AsksForJoin (args : RValue) (wild mapField mapAs : Bytes) : Prop where
  keys : (args.field (ascii "keys")).bind RValue.s = .ok wild
  map : ∃ filter map, args.field (ascii "include") = .ok filter ∧
    filter.field (ascii "map") = .ok map ∧
    (map.field (ascii "field")).bind RValue.s = .ok mapField ∧
    (map.field (ascii "as")).bind RValue.s = .ok mapAs ∧
    filter.has (ascii "sortby") = .ok false ∧ filter.has (ascii "des") = .ok false

/-- The join goes well for an entry: its value can be read, the field that is looked for is a
string and names no value that cannot be read, and looking for it as C does, where an empty
name means no join and a name ends at a zero byte, makes no difference. -/
structure Joinable (store : Store) (mapField mapAs : Bytes) (e : Entry) : Prop where
  reads : Readable e.2
  names : mapField ≠ [] → ∃ key, (parsedValue e.2).field? (cstr mapField) = some (.string key) ∧
    ∀ text, store.find? key = some text → Readable text
  same : joinedWith store mapField mapAs (parsedValue e.2) =
    if mapField = [] then parsedValue e.2
    else joinedWith store (cstr mapField) mapAs (parsedValue e.2)

/-! ## The arguments -/

section

variable [HashOrder] {args : RValue} {wild mapField mapAs : Bytes}

/-- A string that is converted, printed and loaded is the same string. -/
theorem s_reread {x : RValue} {v : WValue} {t : Bytes} (hv : WValue.ofRValue x = .ok v)
    (ht : x.s = .ok t) : (reread v).s = .ok t := by
  cases x with
  | string raw =>
    cases hv
    rw [reread, RValue.s, unescape_escape]
    exact ht
  | _ => cases ht

/-- The map is read as it was given, since printing and loading `include` changes nothing. -/
theorem includeMap_eq {w : WValue} (hargs : WValue.ofRValue args = .ok w)
    (h : AsksForJoin args wild mapField mapAs) : includeMap args = .ok (mapField, mapAs) := by
  obtain ⟨filter, map, hfilter, hmap, hfield, has, hsortby, hdes⟩ := h.map
  obtain ⟨l, rfl, -⟩ := RValue.field_cases hmap
  obtain ⟨wfilter, hwfilter, -⟩ := field_reread_ofRValue hargs hfilter
  obtain ⟨wmap, hwmap, hmapRead⟩ := field_reread_ofRValue hwfilter hmap
  have hhas := has_reread_ofRValue hwfilter
  obtain ⟨xfield, hxfield, hfield⟩ := of_bind_ok hfield
  obtain ⟨xas, hxas, has⟩ := of_bind_ok has
  obtain ⟨wfield, hwfield, hfieldRead⟩ := field_reread_ofRValue hwmap hxfield
  obtain ⟨was, hwas, hasRead⟩ := field_reread_ofRValue hwmap hxas
  simp only [includeMap, RValue.has_of_field hfilter, hfilter, hwfilter, load_dump, checked, hhas,
    RValue.has_of_field hmap, hmapRead, hfieldRead, hasRead, s_reread hwfield hfield,
    s_reread hwas has, hsortby, hdes, bind, Except.bind, pure, Except.pure, if_true,
    Bool.false_eq_true, if_false]

end

/-! ## One entry after the other -/

/-- What the loop appends for an entry. -/
def searched (store : Store) (mapField mapAs : Bytes) (e : Entry) : Except Failure (List WValue) :=
  if ¬Readable e.2 then .error .badLexicalCast
  else if mapField = [] then .ok [keyed e.1 (parsedValue e.2)]
  else match (parsedValue e.2).field? (cstr mapField) with
    | some (.string key) => match store.find? key with
      | some text =>
        if Readable text then .ok [keyed e.1 ((parsedValue e.2).set mapAs (parsedValue text))]
        else .error .badLexicalCast
      | none => .ok [keyed e.1 (parsedValue e.2)]
    | _ => .ok [(keyed e.1 (parsedValue e.2)).set (ascii "error") (.string e.2), .object []]

/-- The stored values are JSON objects. -/
def AllObjects (store : Store) : Prop :=
  ∀ e ∈ store.entries, ∃ o, load e.2 = some (.object o)

theorem AllObjects.isJson {store : Store} (h : AllObjects store) :
    ∀ e ∈ store.entries, IsJson e.2 := by
  intro e he
  obtain ⟨o, ho⟩ := h e he
  rw [IsJson, ho, Option.isSome_some]

/-- A field of an object is read as a string exactly if it is one. -/
theorem fieldText_cases {o : List (Bytes × RValue)} {v : WValue}
    (hv : WValue.ofRValue (.object o) = .ok v) (name : Bytes) :
    (∃ key, v.field? name = some (.string key) ∧
      ((RValue.object o).field name).bind RValue.s = .ok key) ∨
    ((∀ key, v.field? name ≠ some (.string key)) ∧
      ∃ what, ((RValue.object o).field name).bind RValue.s = .error (.runtimeError what)) := by
  have hfield := WValue.field?_ofRValue hv name
  obtain ⟨fs, hfs, -⟩ := WValue.ofRValue_object hv
  cases hx : o.lookup name with
  | none =>
    rw [hx] at hfield
    refine Or.inr ⟨fun key => by simp [hfield], ?_⟩
    exact ⟨_, by rw [RValue.field, hx]; rfl⟩
  | some x =>
    obtain ⟨u, hu⟩ := WValue.ofFields_ok hfs hx
    rw [hx, Option.bind_some, hu] at hfield
    have hread : ((RValue.object o).field name).bind RValue.s = x.s := by
      rw [RValue.field, hx]
      rfl
    rw [hread, hfield]
    cases x with
    | string raw =>
      cases hu
      exact Or.inl ⟨unescape raw, rfl, rfl⟩
    | _ =>
      -- what is no string does not become one
      refine Or.inr ⟨fun key heq => ?_, _, rfl⟩
      obtain rfl := Option.some.inj heq
      simp only [WValue.ofRValue] at hu
      first | cases hu | (split at hu <;> cases hu) | (obtain ⟨_, -, h⟩ := of_map_ok hu; cases h)

section

variable {c : Config} {n : Node} {mapField mapAs : Bytes}
  (hcache : c.cacheEnabled = false) (hdb : c.dbOk = true)
include hcache hdb

/-- A value is looked up in the database and read. -/
theorem getJson_yields (hjson : ∀ e ∈ n.db.entries, IsJson e.2) (key : Bytes) :
    Yields noFaults n (getJson c key) (match n.db.find? key with
      | some text => if Readable text then .ok (some (parsedValue text)) else .error .badLexicalCast
      | none => .ok none) := by
  have hget : Yields noFaults n (get c key) (.ok (n.db.find? key)) := by
    simp only [get, hcache, hdb, if_true, Bool.false_eq_true, if_false]
    exact Yields.dbGet
  unfold getJson
  refine Yields.bind_ok hget ?_
  cases hfind : n.db.find? key with
  | none => exact Yields.pure none
  | some text =>
    have hvalue := loadValue_of_isJson (hjson _ (OrderedMap.find?_eq_some.mp hfind))
    by_cases hread : Readable text
    · rw [if_pos hread] at hvalue
      simp only [hvalue, hread, if_true]
      exact Yields.bind_ok (Yields.ofExcept _) (Yields.pure _)
    · rw [if_neg hread] at hvalue
      simp only [hvalue, hread, if_false]
      exact Yields.bind_error (Yields.ofExcept _)

/-- The block that joins an entry goes on only if its field is a string. -/
theorem joinedValue_yields (hjson : ∀ e ∈ n.db.entries, IsJson e.2) {e : Entry}
    {o : List (Bytes × RValue)} (ho : load e.2 = some (.object o)) (hread : Readable e.2) :
    Yields noFaults n
      (catchRuntime (do return some (← joinedValue c mapField e)) (return none))
      (match (parsedValue e.2).field? (cstr mapField) with
        | some (.string key) => match n.db.find? key with
          | some text =>
            if Readable text then .ok (some (some (parsedValue text))) else .error .badLexicalCast
          | none => .ok (some none)
        | _ => .ok none) := by
  have hvalue : WValue.ofRValue (.object o) = .ok (parsedValue e.2) := by
    have hload := @loadValue_of_isJson e.2 (by rw [IsJson, ho, Option.isSome_some])
    rw [if_pos hread, loadValue, ho] at hload
    exact hload
  have hload : Yields noFaults n (ofExcept (checked (load e.2))) (.ok (.object o)) := by
    rw [ho]
    exact Yields.ofExcept (.ok (RValue.object o))
  have hnone : Yields noFaults n (return none : CoreM (Option (Option WValue))) (.ok none) :=
    Yields.pure none
  rcases fieldText_cases hvalue (cstr mapField) with ⟨key, hfield, hkey⟩ | ⟨hfield, what, hkey⟩
  · have hjoined : Yields noFaults n (joinedValue c mapField e) _ :=
      Yields.bind_ok hload (Yields.bind_ok (by rw [hkey]; exact Yields.ofExcept (.ok key))
        (getJson_yields hcache hdb hjson key))
    rw [hfield]
    cases hfind : n.db.find? key with
    | none =>
      simp only [hfind] at hjoined ⊢
      refine Yields.catchRuntime (r := .ok (some none)) (Yields.bind_ok hjoined ?_) hnone
      exact Yields.pure _
    | some text =>
      simp only [hfind] at hjoined
      by_cases htext : Readable text
      · simp only [htext, if_true, hfind] at hjoined ⊢
        refine Yields.catchRuntime (r := .ok (some (some (parsedValue text))))
          (Yields.bind_ok hjoined ?_) hnone
        exact Yields.pure _
      · simp only [htext, if_false, hfind] at hjoined ⊢
        exact Yields.catchRuntime (Yields.bind_error hjoined) hnone
  · have hjoined : Yields noFaults n (joinedValue c mapField e) (.error (.runtimeError what)) :=
      Yields.bind_ok hload (Yields.bind_error (by rw [hkey]; exact Yields.ofExcept _))
    split
    · next key hstring => exact absurd hstring (hfield key)
    · exact Yields.catchRuntime (Yields.bind_error hjoined) hnone

/-- What the loop does for an entry. -/
theorem searchItems_yields (hobjects : AllObjects n.db) {e : Entry} (he : e ∈ n.db.entries) :
    Yields noFaults n (searchItems c mapField mapAs e) (searched n.db mapField mapAs e) := by
  obtain ⟨o, ho⟩ := hobjects e he
  have hjson := hobjects.isJson e he
  have hvalue := (entryValue_of_isJson hjson).trans (loadValue_of_isJson hjson)
  unfold searchItems searched
  by_cases hread : Readable e.2
  · rw [if_pos hread] at hvalue
    simp only [hvalue, hread, not_true_eq_false, if_false]
    by_cases hmap : mapField = []
    · simp only [hmap, if_true]
      exact Yields.pure _
    · simp only [hmap, if_false]
      have hjoined := @joinedValue_yields _ _ mapField hcache hdb hobjects.isJson _ _ ho hread
      split
      · next key hstring =>
        rw [hstring] at hjoined
        cases hfind : n.db.find? key with
        | none =>
          simp only [hfind] at hjoined
          exact Yields.bind_ok hjoined (Yields.pure _)
        | some text =>
          simp only [hfind] at hjoined
          by_cases htext : Readable text
          · simp only [htext, if_true] at hjoined ⊢
            exact Yields.bind_ok hjoined (Yields.pure _)
          · simp only [htext, if_false] at hjoined ⊢
            exact Yields.bind_error hjoined
      · next hstring =>
        have hnone : Yields noFaults n
            (catchRuntime (do return some (← joinedValue c mapField e)) (return none))
            (.ok none) := by
          convert hjoined using 1
          split
          · next key heq => exact absurd heq (hstring key)
          · rfl
        exact Yields.bind_ok hnone (Yields.pure _)
  · rw [if_neg hread] at hvalue
    simp only [hvalue, hread, not_false_eq_true, if_true, Failure.isRuntimeError]
    exact Yields.ofExcept (.error .badLexicalCast)

/-- The loop does so for one entry after the other. -/
theorem searchLoop_joins (hobjects : AllObjects n.db) {es : List Entry}
    (hes : ∀ e ∈ es, e ∈ n.db.entries) : Yields noFaults n (searchLoop c mapField mapAs es)
      ((es.mapM (searched n.db mapField mapAs)).map List.flatten) := by
  induction es with
  | nil => exact Yields.pure []
  | cons e es ih =>
    obtain ⟨he, hes⟩ := List.forall_mem_cons.mp hes
    have hitems : Yields noFaults n (searchItems c mapField mapAs e) _ :=
      searchItems_yields hcache hdb hobjects he
    have hrest := ih hes
    rw [searchLoop, List.mapM_cons]
    cases hr : searched n.db mapField mapAs e with
    | error f =>
      rw [hr] at hitems
      exact Yields.bind_error hitems
    | ok r =>
      rw [hr] at hitems
      refine Yields.bind_ok hitems ?_
      cases hall : es.mapM (searched n.db mapField mapAs) with
      | error f =>
        rw [hall] at hrest
        exact Yields.bind_error hrest
      | ok rs =>
        rw [hall] at hrest
        exact Yields.bind_ok hrest (Yields.pure _)

end

/-! ## One element for each entry -/

section

variable {store : Store} {mapField mapAs : Bytes}

@[simp] theorem field?_keyed_value (key : Bytes) (v : WValue) :
    (keyed key v).field? (ascii "value") = some v := by
  rw [keyed, WValue.field?_set, if_neg (by decide), WValue.field?_set, if_pos rfl]

@[simp] theorem field?_keyed_error (key : Bytes) (v : WValue) :
    (keyed key v).field? (ascii "error") = none := by
  rw [keyed, WValue.field?_set, if_neg (by decide), WValue.field?_set, if_neg (by decide)]
  rfl

theorem keyed_eq_iff {key : Bytes} {v v' : WValue} : keyed key v = keyed key v' ↔ v = v' := by
  constructor
  · intro h
    have hvalue := congrArg (fun w => w.field? (ascii "value")) h
    simpa using hvalue
  · rintro rfl
    rfl

/-- An entry is appended with its value, or as an error with an empty element after it. -/
theorem searched_cases {e : Entry} {r : List WValue}
    (h : searched store mapField mapAs e = .ok r) :
    (∃ v, r = [keyed e.1 v]) ∨
      ∃ shown, r = [shown, .object []] ∧ shown.field? (ascii "error") = some (.string e.2) := by
  unfold searched at h
  split at h
  · cases h
  split at h
  · cases h
    exact Or.inl ⟨_, rfl⟩
  split at h
  · split at h
    · split at h
      · cases h
        exact Or.inl ⟨_, rfl⟩
      · cases h
    · cases h
      exact Or.inl ⟨_, rfl⟩
  · cases h
    exact Or.inr ⟨_, rfl, by rw [WValue.field?_set, if_pos rfl]⟩

/-- An entry is appended as the join asks exactly if the join goes well for it. -/
theorem searched_eq_iff {e : Entry} :
    searched store mapField mapAs e = .ok [joinedEntry store mapField mapAs e] ↔
      Joinable store mapField mapAs e := by
  by_cases hread : Readable e.2
  case neg =>
    refine iff_of_false ?_ fun h => hread h.reads
    simp [searched, hread]
  by_cases hmap : mapField = []
  · rw [searched, if_neg (not_not.mpr hread), if_pos hmap, joinedEntry, Except.ok.injEq,
      List.cons.injEq, keyed_eq_iff]
    constructor
    · rintro ⟨heq, -⟩
      exact ⟨hread, fun hne => absurd hmap hne, by rw [if_pos hmap, ← heq]⟩
    · intro h
      refine ⟨?_, rfl⟩
      rw [h.same, if_pos hmap]
  · rw [searched, if_neg (not_not.mpr hread), if_neg hmap]
    split
    · next key hstring =>
      cases hfind : store.find? key with
      | none =>
        have hplain : joinedWith store (cstr mapField) mapAs (parsedValue e.2) =
            parsedValue e.2 := by simp only [joinedWith, namedText, hstring, hfind]
        simp only [joinedEntry, Except.ok.injEq, List.cons.injEq, keyed_eq_iff, and_true]
        constructor
        · intro heq
          refine ⟨hread, fun _ => ⟨key, hstring, by simp [hfind]⟩, ?_⟩
          rw [if_neg hmap, hplain, ← heq]
        · intro h
          rw [h.same, if_neg hmap, hplain]
      | some text =>
        have hwith : joinedWith store (cstr mapField) mapAs (parsedValue e.2) =
            (parsedValue e.2).set mapAs (parsedValue text) := by
          simp only [joinedWith, namedText, hstring, hfind]
        by_cases htext : Readable text
        · simp only [htext, if_true, joinedEntry, Except.ok.injEq, List.cons.injEq, keyed_eq_iff,
            and_true]
          constructor
          · intro heq
            refine ⟨hread, fun _ => ⟨key, hstring, by simp [hfind, htext]⟩, ?_⟩
            rw [if_neg hmap, hwith, ← heq]
          · intro h
            rw [h.same, if_neg hmap, hwith]
        · simp only [htext, if_false]
          refine iff_of_false (by simp) fun h => ?_
          obtain ⟨key', hstring', hnamed⟩ := h.names hmap
          rw [hstring] at hstring'
          cases hstring'
          exact htext (hnamed text hfind)
    · next hstring =>
      refine iff_of_false (fun h => ?_) fun h => ?_
      · simp at h
      · obtain ⟨key, hkey, -⟩ := h.names hmap
        exact hstring key hkey

/-- Each entry has exactly its element if and only if the join goes well for all of them. -/
theorem mapM_searched_iff {es : List Entry} :
    (es.mapM (searched store mapField mapAs)).map List.flatten =
        .ok (es.map (joinedEntry store mapField mapAs)) ↔
      ∀ e ∈ es, Joinable store mapField mapAs e := by
  induction es with
  | nil => simp [pure, Except.pure, Except.map]
  | cons e es ih =>
    rw [List.forall_mem_cons, ← ih, ← searched_eq_iff, List.mapM_cons]
    cases hr : searched store mapField mapAs e with
    | error f => exact iff_of_false (fun h => by cases h) fun h => by cases h.1
    | ok r =>
      cases hall : es.mapM (searched store mapField mapAs) with
      | error f => exact iff_of_false (fun h => by cases h) fun h => by cases h.2
      | ok rs =>
        change Except.ok (r ++ rs.flatten) = Except.ok (_ :: _) ↔
          Except.ok r = Except.ok _ ∧ Except.ok rs.flatten = Except.ok _
        simp only [Except.ok.injEq]
        rcases searched_cases hr with ⟨v, rfl⟩ | ⟨shown, rfl, herror⟩
        · simp
        · -- the element with the error is none of the join
          have hne : shown ≠ joinedEntry store mapField mapAs e := by
            rintro rfl
            simp [joinedEntry] at herror
          simp [hne]

end

/-! ## The search -/

section

variable [HashOrder] {c : Config} {w : World} {wild mapField mapAs : Bytes} {args : RValue}
  {win : Window}

/-- The search has one element for each of the entries, in their order, and joins them. -/
def GivesLeftJoin (c : Config) (w : World) (args : RValue) (mapField mapAs : Bytes)
    (win : Window) (es : List Entry) : Prop :=
  answer noFaults w (searchJson c args win) =
    .ok (true, es.map (joinedEntry w.node.db mapField mapAs))

/-- On a store of objects the search is a left join of the entries of its window if and only if
crow can convert the arguments and the join goes well for each of these entries. -/
theorem searchJson_leftJoin_iff (hcache : c.cacheEnabled = false) (hdb : c.dbOk = true)
    (hobjects : AllObjects w.node.db) (hstar : startsWithStar wild = false)
    (hargs : AsksForJoin args wild mapField mapAs) (win : Window) :
    (GivesLeftJoin c w args mapField mapAs win (listed w.node.db wild win) ↔
      (WValue.ofRValue args).isOk = true ∧
        ∀ e ∈ listed w.node.db wild win, Joinable w.node.db mapField mapAs e) ∧
    (win.Unwrapped → w.node.db.entries.length ≤ 2 ^ 31 →
      listed w.node.db wild win = selectAt win.spans 0 (matching w.node.db wild)) := by
  refine ⟨?_, listed_eq_spans⟩
  have hlisted : ∀ e ∈ listed w.node.db wild win, e ∈ w.node.db.entries := fun e he =>
    (matching_sublist _ _).subset ((listed_sublist _ _ _).subset he)
  rw [← mapM_searched_iff]
  have hloop : Yields noFaults w.node (searchLoop c mapField mapAs (listed w.node.db wild win)) _ :=
    searchLoop_joins hcache hdb hobjects hlisted
  cases hw : WValue.ofRValue args with
  | error f =>
    refine iff_of_false (fun h => ?_) fun h => by cases h.1
    -- the arguments are printed for the log, whatever they ask for
    have hfails : Yields noFaults w.node (searchJson c args win) (.error f) := by
      unfold searchJson
      rw [if_pos hdb, hw]
      exact Yields.bind_error (Yields.ofExcept (.error f))
    rw [GivesLeftJoin, (hfails w rfl).1] at h
    cases h
  | ok wargs =>
    have hsearch : Yields noFaults w.node (searchJson c args win)
        ((((listed w.node.db wild win).mapM (searched w.node.db mapField mapAs)).map
          List.flatten).bind fun items => .ok (true, items)) := by
      unfold searchJson
      rw [if_pos hdb, hw, hargs.keys, includeMap_eq hw hargs]
      refine Yields.bind_ok (Yields.ofExcept _) (Yields.bind_ok (Yields.ofExcept _)
        (Yields.bind_ok (Yields.ofExcept _) ?_))
      rw [hstar, if_neg Bool.false_ne_true]
      refine Yields.bind_ok Yields.dbIterate ?_
      exact Yields.bind hloop fun items _ => Yields.pure _
    rw [GivesLeftJoin, (hsearch w rfl).1]
    cases ((listed w.node.db wild win).mapM (searched w.node.db mapField mapAs)).map
        List.flatten with
    | error f => exact iff_of_false (fun h => by cases h) fun h => by cases h.2
    | ok items => simp [Except.bind, Except.isOk, Except.toBool]

end

/-- The body of a search that joins items with their sellers. -/
def sellerArgs : RValue := .object [(ascii "keys", .string (ascii "item*")),
  (ascii "include", .object [(ascii "map", .object [(ascii "field", .string (ascii "seller_id")),
    (ascii "as", .string (ascii "seller"))])])]

theorem sellerArgs_asksForJoin :
    AsksForJoin sellerArgs (ascii "item*") (ascii "seller_id") (ascii "seller") :=
  ⟨rfl, _, _, rfl, rfl, rfl, rfl, rfl, rfl⟩

/-- A user and an item that the user sells. -/
def soldItem : Store :=
  (OrderedMap.empty.insert (ascii "item1") (ascii "\x7b\"seller_id\":\"user1\"\x7d")).insert
    (ascii "user1") (ascii "\x7b\"name\":\"u1\"\x7d")

/-- An item that nobody sells. -/
def unsoldItem : Store :=
  OrderedMap.empty.insert (ascii "item1") (ascii "\x7b\"id\":\"1\"\x7d")

/-- The item is joined with its seller. -/
theorem leftJoin_soldItem : @GivesLeftJoin .insertion uncachedOnly (openDB uncachedOnly soldItem)
    sellerArgs (ascii "seller_id") (ascii "seller") ⟨0, -1⟩
    (listed soldItem (ascii "item*") ⟨0, -1⟩) := by
  have hlisted : listed soldItem (ascii "item*") ⟨0, -1⟩ =
      [(ascii "item1", ascii "\x7b\"seller_id\":\"user1\"\x7d")] := by decide +kernel
  have hload : load (ascii "\x7b\"seller_id\":\"user1\"\x7d") =
      some (.object [(ascii "seller_id", .string (ascii "user1"))]) := by cbv
  have hfield : (parsedValue (ascii "\x7b\"seller_id\":\"user1\"\x7d")).field?
      (ascii "seller_id") = some (.string (ascii "user1")) := by
    rw [parsedValue, loadValue, hload]
    rfl
  refine (@searchJson_leftJoin_iff .insertion uncachedOnly (openDB uncachedOnly soldItem)
    (ascii "item*") (ascii "seller_id") (ascii "seller") sellerArgs rfl rfl ?_ (by decide)
    sellerArgs_asksForJoin ⟨0, -1⟩).1.mpr ⟨rfl, ?_⟩
  · have hentries : soldItem.entries =
        [(ascii "item1", ascii "\x7b\"seller_id\":\"user1\"\x7d"),
          (ascii "user1", ascii "\x7b\"name\":\"u1\"\x7d")] := by decide +kernel
    intro e he
    change e ∈ soldItem.entries at he
    rw [hentries] at he
    simp only [List.mem_cons, List.not_mem_nil, or_false] at he
    rcases he with rfl | rfl
    · exact ⟨[(ascii "seller_id", .string (ascii "user1"))], hload⟩
    · exact ⟨[(ascii "name", .string (ascii "u1"))], by cbv⟩
  · intro e he
    change e ∈ listed soldItem (ascii "item*") ⟨0, -1⟩ at he
    rw [hlisted, List.mem_singleton] at he
    subst he
    refine ⟨by decide +kernel, fun _ => ⟨ascii "user1", ?_, ?_⟩, ?_⟩
    · exact hfield
    · have hread : ∀ text, soldItem.find? (ascii "user1") = some text → Readable text := by
        decide +kernel
      exact hread
    · rw [if_neg (by decide)]
      rfl

/-- An item without a seller takes up two elements. -/
theorem not_leftJoin_unsoldItem : (∃ o, load (ascii "\x7b\"id\":\"1\"\x7d") = some (.object o)) ∧
    AsksForJoin sellerArgs (ascii "item*") (ascii "seller_id") (ascii "seller") ∧
    listed unsoldItem (ascii "item*") ⟨0, -1⟩ =
      [(ascii "item1", ascii "\x7b\"id\":\"1\"\x7d")] ∧
    ¬@GivesLeftJoin .insertion uncachedOnly (openDB uncachedOnly unsoldItem) sellerArgs
      (ascii "seller_id") (ascii "seller") ⟨0, -1⟩
      (listed unsoldItem (ascii "item*") ⟨0, -1⟩) := by
  refine ⟨⟨[(ascii "id", .string (ascii "1"))], by cbv⟩, sellerArgs_asksForJoin,
    by decide +kernel, fun h => ?_⟩
  have hlength : (answer noFaults (openDB uncachedOnly unsoldItem)
      (@searchJson .insertion uncachedOnly sellerArgs ⟨0, -1⟩)).map (fun r => r.2.length) =
      .ok 2 := by decide +kernel
  rw [h] at hlength
  have hone : (listed unsoldItem (ascii "item*") ⟨0, -1⟩).length = 1 := by decide +kernel
  simp [Except.map, hone] at hlength

end Quarks
