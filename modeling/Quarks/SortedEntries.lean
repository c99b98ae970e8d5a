import Quarks.FollowingKeys
import Quarks.Json.Decimals
import Quarks.PrefixSeek
import Quarks.SortOrder
import Quarks.TextListings
import Mathlib.Algebra.Module.Submodule.Lattice
import Mathlib.Data.List.Permutation

/-!
# Sorted listings

`getSorted` makes an object of each matching entry, sorts the objects by a field of their
values, and lists a window of them. It keeps an entry only if its value starts with a brace,
and it compares numbers by their integral parts, so that it orders the entries by their numbers
only as far as these differ there.
-/

namespace Quarks

open Basis

/-! ## The objects that are sorted -/

/-- The object that is made of an entry whose value starts with a brace. -/
def sortedPair (e : Entry) : RValue :=
  .object [(ascii "value", (load e.2).getD .null), (ascii "key", .string e.1)]

/-- The value as it stands in the text that is made of an entry. -/
def quotedValue (value : Bytes) : Bytes :=
  match value with
  | [] => []
  | c :: _ => if c = 123 ∨ c = 34 then value else 34 :: (value ++ [34])

/-- The text behind the value. -/
def keyTail (key : Bytes) : Bytes :=
  44 :: 34 :: (ascii "key" ++ 34 :: 58 :: 34 :: (cstr key ++ [34, 125]))

theorem keyVal_eq (e : Entry) : keyVal e =
    123 :: 34 :: (ascii "value" ++ 34 :: 58 :: (quotedValue e.2 ++ keyTail e.1)) := by
  have hvalue : keyVal e = ascii "\x7b\"value\":" ++ quotedValue e.2 ++ ascii ",\"key\":\"" ++
      cstr e.1 ++ ascii "\"\x7d" := rfl
  rw [hvalue]
  simp [keyTail, ascii]

/-- The text that is made of the entry holds its value and its key as they are. -/
structure Rewrapped (e : Entry) : Prop where
  json : IsJson e.2
  start : e.2.head? = some 123 ∨ e.2.head? = some 34
  value : (0 : UInt8) ∉ e.2
  key : Plain e.1
  zero : (0 : UInt8) ∉ e.1

theorem zero_not_mem_keyTail (key : Bytes) : (0 : UInt8) ∉ keyTail key := by
  have hkey := zero_not_mem_cstr key
  simp [keyTail, hkey, ascii]

/-- A value that starts with a brace or a quote is not quoted. -/
theorem quotedValue_of_start {value : Bytes}
    (h : value.head? = some 123 ∨ value.head? = some 34) : quotedValue value = value := by
  cases value with
  | nil => rfl
  | cons c s => exact if_pos (by simpa using h)

section

variable {e : Entry} {v x : RValue}

/-- The object of an entry whose value and key need no change. -/
theorem load_keyVal (h : Rewrapped e) : load (keyVal e) = some (sortedPair e) := by
  obtain ⟨v, hload⟩ := Option.isSome_iff_exists.mp h.json
  have hzero := h.zero
  have htail := zero_not_mem_keyTail e.1
  have hcstr : cstr (e.2 ++ keyTail e.1) = e.2 ++ keyTail e.1 :=
    cstr_eq_self fun hmem => (List.mem_append.mp hmem).elim h.value htail
  rw [keyVal_eq, quotedValue_of_start h.start, sortedPair, hload]
  refine (load_firstField (by decide +kernel) (by decide +kernel)).mpr ?_
  rw [hcstr]
  obtain ⟨r₁, hr₁, hskip⟩ := decodeValue_spliced
    (endsValue_cons (Or.inl rfl) _ : EndsValue (keyTail e.1)) hload h.value
    (show 2 * e.2.length + 2 ≤ 2 * ((ascii "value").length + 4 + (e.2 ++ keyTail e.1).length) by
      rw [List.length_append]
      omega)
  refine ⟨v, r₁, [], hr₁, rfl, Or.inr ⟨_, [(ascii "key", .string e.1)], hskip, ?_, rfl⟩⟩
  obtain ⟨fuel, hfuel⟩ := Nat.exists_eq_add_of_le' (show 2 ≤ 2 * ((ascii "value").length + 4 +
    (e.2 ++ keyTail e.1).length) by omega)
  have hname : decodeValue (fuel + 1) (wsSkip (34 :: (cstr e.1 ++ [34, 125]))) =
      some (.string e.1, [125]) := by
    rw [wsSkip_of_ne (by decide), decodeValue_string, cstr_eq_self hzero,
      h.key.escaped.decodeString [125]]
    rfl
  rw [hfuel, wsSkip_of_ne (by decide)]
  exact (decodeObject_field plain_key).mpr ⟨_, _, hname, Or.inl ⟨rfl, rfl⟩⟩

/-- If the value starts with another character, the value of the object is a string. -/
theorem load_keyVal_quoted (hbrace : e.2.head? ≠ some 123) (hne : e.2 ≠ [])
    (h : load (keyVal e) = some x) :
    ∃ raw o, x = .object ((ascii "value", .string raw) :: o) := by
  obtain ⟨s, hs⟩ : ∃ s, quotedValue e.2 ++ keyTail e.1 = 34 :: s := by
    cases hvalue : e.2 with
    | nil => exact absurd hvalue hne
    | cons c s =>
      rw [hvalue] at hbrace
      have hc : c ≠ 123 := by simpa using hbrace
      by_cases hquote : c = 34
      · subst hquote
        exact ⟨_, rfl⟩
      · simp only [quotedValue, hc, hquote, or_self, if_false]
        exact ⟨_, rfl⟩
  have hcstr : cstr (34 :: s) = 34 :: cstr s := List.takeWhile_cons_of_pos (by decide)
  rw [keyVal_eq, hs] at h
  obtain ⟨o, rfl⟩ := load_brace h
  obtain ⟨y, r₁, r, hy, -, hfields⟩ :=
    (load_firstField (by decide +kernel) (by decide +kernel)).mp h
  obtain ⟨fuel, hfuel⟩ := Nat.exists_eq_add_of_le' (show 1 ≤ 2 * ((ascii "value").length + 4 +
    (34 :: cstr s).length) by omega)
  rw [hcstr, wsSkip_of_ne (by decide), hfuel, decodeValue_string, Option.map_eq_some_iff] at hy
  obtain ⟨⟨raw, t⟩, -, heq⟩ := hy
  cases heq
  rcases hfields with ⟨-, rfl⟩ | ⟨t', o', -, -, rfl⟩
  · exact ⟨raw, [], rfl⟩
  · exact ⟨raw, o', rfl⟩

end

/-! ## What is gathered -/

/-- The objects that can be made of the entries. -/
def madeOf (es : List Entry) : List RValue := es.filterMap fun e => load (keyVal e)

theorem madeOf_cons (e : Entry) (es : List Entry) :
    madeOf (e :: es) = (load (keyVal e)).toList ++ madeOf es := by
  rw [madeOf, List.filterMap_cons]
  cases load (keyVal e) <;> rfl

section

variable {es : List Entry} {x : RValue} {xs : List RValue} {items : List WValue}

/-- Without a filter an object is kept if it can be printed for the log. -/
theorem filtered_nil (x : RValue) : filtered [] x = (WValue.ofRValue x).map fun _ => some x := by
  have hload : load [] = none := by decide
  unfold filtered
  rw [hload]
  cases WValue.ofRValue x <;> rfl

/-- Without a filter every object that can be made is kept, if all of them can be converted. -/
theorem gather_nil (es : List Entry) (g : Gathered) :
    gather [] es g = if ∀ x ∈ madeOf es, (WValue.ofRValue x).isOk = true then
        .ok ⟨g.allResults ++ madeOf es,
          g.isSortable && es.all fun e => (load (keyVal e)).isSome, g.ret⟩
      else .error .badLexicalCast := by
  induction es generalizing g with
  | nil => simp [gather, madeOf]
  | cons e es ih =>
    rw [madeOf_cons, List.all_cons, gather]
    cases hload : load (keyVal e) with
    | none => simp [ih]
    | some x =>
      simp only [filtered_nil]
      cases hx : WValue.ofRValue x with
      | error f =>
        have hf := ofRValue_error hx
        simp [Except.map, hf, Failure.isRuntimeError, hx, Except.isOk, Except.toBool]
      | ok w => simp [Except.map, ih, hx, Except.isOk, Except.toBool]

/-- There is an object for each entry only if one can be made of each. -/
theorem of_length_madeOf (h : (madeOf es).length = es.length) :
    ∀ e ∈ es, ∃ x ∈ madeOf es, load (keyVal e) = some x := by
  rw [madeOf, List.length_filterMap_eq_countP, List.countP_eq_length] at h
  intro e he
  obtain ⟨x, hx⟩ := Option.isSome_iff_exists.mp (h e he)
  exact ⟨x, List.mem_filterMap.mpr ⟨e, he, hx⟩, hx⟩

/-- There is at most one item for each object, and for each object one if there are as many. -/
theorem sortedItems_length (h : sortedItems xs = .ok items) : items.length ≤ xs.length ∧
    (items.length = xs.length → ∀ x ∈ xs, ∃ w ∈ items, sortedItem x = .ok (some w)) := by
  induction xs generalizing items with
  | nil =>
    cases h
    exact ⟨le_rfl, fun _ x hx => by cases hx⟩
  | cons x xs ih =>
    obtain ⟨item, hitem, h⟩ := of_bind_ok h
    obtain ⟨rest, hrest, h⟩ := of_bind_ok h
    cases h
    obtain ⟨hle, hall⟩ := ih hrest
    cases item with
    | none =>
      simp only [Option.toList, List.nil_append, List.length_cons]
      exact ⟨by omega, fun h => by omega⟩
    | some w =>
      simp only [Option.toList, List.singleton_append, List.length_cons]
      refine ⟨by omega, fun h y hy => ?_⟩
      rcases List.mem_cons.mp hy with rfl | hy
      · exact ⟨w, List.mem_cons_self, hitem⟩
      · obtain ⟨w', hw', hitem'⟩ := hall (by omega) y hy
        exact ⟨w', List.mem_cons_of_mem w hw', hitem'⟩

/-- The objects in the order in which they are listed. -/
def arranged [UnstableSort] (sortby : Bytes) (ascending sortable : Bool) (xs : List RValue) :
    Except Failure (List RValue) :=
  (if sortable then stdSort (jsonComparer sortby) xs else .ok xs).map fun xs =>
    if ascending then xs else xs.reverse

/-- What is listed of the objects that are made of the entries. -/
theorem sortedListing_nil [UnstableSort] {sortby : Bytes} {ascending : Bool} {win : Window}
    (es : List Entry) : sortedListing sortby ascending win [] es =
      if ∀ x ∈ madeOf es, (WValue.ofRValue x).isOk = true then
        (arranged sortby ascending (decide (sortby ≠ []) && es.all fun e =>
          (load (keyVal e)).isSome) (madeOf es)).bind fun order =>
            (sortedItems (scan (fun _ => true) win order)).map fun items => (true, items)
      else .error .badLexicalCast := by
  unfold sortedListing
  rw [gather_nil]
  split
  · rw [List.nil_append]
    generalize (decide (sortby ≠ []) && es.all fun e => (load (keyVal e)).isSome) = sortable
    have hmap : ∀ r : Except Failure (List WValue), (r.bind fun items => .ok (true, items)) =
        r.map fun items => (true, items) := by
      rintro (f | items) <;> rfl
    unfold arranged
    cases sortable with
    | false => exact hmap (sortedItems (scan (fun _ => true) win
        (if ascending then madeOf es else (madeOf es).reverse)))
    | true =>
      change (stdSort (jsonComparer sortby) (madeOf es)).bind (fun xs => (sortedItems
        (scan (fun _ => true) win (if ascending then xs else xs.reverse))).bind fun items =>
          .ok (true, items)) = ((stdSort (jsonComparer sortby) (madeOf es)).map _).bind _
      cases stdSort (jsonComparer sortby) (madeOf es) with
      | error f => rfl
      | ok xs => exact hmap _
  · rfl

end

/-! ## The items of a listing -/

/-- The value of an entry is a JSON object, and its key needs no escape. -/
structure Listable (e : Entry) : Prop where
  object : ∃ o, load e.2 = some (.object o)
  value : (0 : UInt8) ∉ e.2
  key : Plain e.1
  zero : (0 : UInt8) ∉ e.1

section

variable {e : Entry} {x : RValue}

theorem Listable.ne_nil (h : Listable e) : e.2 ≠ [] := by
  obtain ⟨o, ho⟩ := h.object
  intro hnil
  rw [hnil] at ho
  cases ho

theorem Listable.isJson (h : Listable e) : IsJson e.2 := by
  obtain ⟨o, ho⟩ := h.object
  rw [IsJson, ho]
  rfl

theorem Listable.rewrapped (h : Listable e) (hbrace : e.2.head? = some 123) : Rewrapped e :=
  ⟨h.isJson, Or.inl hbrace, h.value, h.key, h.zero⟩

/-- The object of an entry is converted exactly if its value is. -/
theorem ofRValue_sortedPair (h : IsJson e.2) :
    (WValue.ofRValue (sortedPair e)).isOk = true ↔ Readable e.2 := by
  obtain ⟨v, hv⟩ := Option.isSome_iff_exists.mp h
  have hload : loadValue e.2 = WValue.ofRValue v := by
    rw [loadValue, hv]
    rfl
  rw [Readable, hload, sortedPair, hv, Option.getD_some]
  simp only [WValue.ofRValue, WValue.ofFields]
  cases WValue.ofRValue v <;> rfl

/-- The item of an entry whose value can be converted. -/
theorem sortedItem_sortedPair (h : Rewrapped e) (hread : Readable e.2) :
    sortedItem (sortedPair e) = .ok (some (keyedEntry e)) := by
  obtain ⟨v, hv⟩ := Option.isSome_iff_exists.mp h.json
  have hload : WValue.ofRValue v = .ok (parsedValue e.2) := by
    have hvalue := (loadValue_of_isJson h.json).trans (if_pos hread)
    rwa [loadValue, hv] at hvalue
  have hvalue : (sortedPair e).field (ascii "value") = .ok v := by
    rw [sortedPair, hv, RValue.field, List.lookup_cons_self]
    rfl
  have hkey : (sortedPair e).field (ascii "key") = .ok (.string e.1) := by
    rfl
  have hname : WValue.ofRValue (.string e.1) = .ok (.string e.1) := by
    rw [WValue.ofRValue, h.key.unescape_eq]
  unfold sortedItem
  rw [hvalue, hkey]
  simp only [bind, Except.bind, hload, hname]
  rfl

theorem of_caught_some {α : Type} {r : Except Failure (Option α)} {a : α}
    (h : caught r (.ok none) = .ok (some a)) : r = .ok (some a) := by
  cases r with
  | ok o => exact h
  | error f =>
    unfold caught at h
    simp only at h
    split at h <;> cases h

theorem field?_keyedEntry (e : Entry) :
    (keyedEntry e).field? (ascii "value") = some (parsedValue e.2) ∧
      (keyedEntry e).field? (ascii "key") = some (.string e.1) := by
  refine ⟨?_, field?_keyed _ _⟩
  rw [keyedEntry, keyed, WValue.field?_set, if_neg (by decide), WValue.field?_set, if_pos rfl]

/-- An item holds the converted value and key of its object. -/
theorem of_sortedItem {w : WValue} (h : sortedItem x = .ok (some w)) : ∃ xv xk v k,
    x.field (ascii "value") = .ok xv ∧ x.field (ascii "key") = .ok xk ∧
    WValue.ofRValue xv = .ok v ∧ WValue.ofRValue xk = .ok k ∧
    w.field? (ascii "value") = some v ∧ w.field? (ascii "key") = some k := by
  unfold sortedItem at h
  obtain ⟨xv, hxv, h⟩ := of_bind_ok (of_caught_some h)
  obtain ⟨v, hv, h⟩ := of_bind_ok h
  obtain ⟨xk, hxk, h⟩ := of_bind_ok h
  obtain ⟨k, hk, h⟩ := of_bind_ok h
  cases h
  refine ⟨xv, xk, v, k, hxv, hxk, hv, hk, ?_, ?_⟩
  · rw [WValue.field?_set, if_neg (by decide), WValue.field?_set, if_pos rfl]
  · rw [WValue.field?_set, if_pos rfl]

/-- An item with a string for its value is not that of an object. -/
theorem sortedItem_ne_keyedEntry {raw : Bytes} {o : List (Bytes × RValue)} (h : Listable e) :
    sortedItem (.object ((ascii "value", .string raw) :: o)) ≠ .ok (some (keyedEntry e)) := by
  have hvalue : (RValue.object ((ascii "value", .string raw) :: o)).field (ascii "value") =
      .ok (.string raw) := by
    rw [RValue.field, List.lookup_cons_self]
  have hparsed : ∀ s, parsedValue e.2 ≠ .string s := by
    obtain ⟨o', ho'⟩ := h.object
    intro s
    rw [parsedValue, loadValue, ho']
    simp only [checked, Except.bind, WValue.ofRValue]
    cases WValue.ofFields o' with
    | error f => simp [Except.map, Except.toOption]
    | ok fs => simp [Except.map, Except.toOption]
  intro hitem
  obtain ⟨xv, -, v, -, hxv, -, hv, -, hfield, -⟩ := of_sortedItem hitem
  rw [hvalue] at hxv
  cases hxv
  cases hv
  rw [(field?_keyedEntry e).1] at hfield
  exact hparsed _ (Option.some.inj hfield)

end

/-- What a window takes of an image is the image of what it takes. -/
theorem scan_map {α β : Type} {win : Window} (f : α → β) (l : List α) :
    scan (fun _ => true) win (l.map f) = (scan (fun _ => true) win l).map f := by
  have hfrom : ∀ i : ℤ, scanFrom (fun _ : β => true) win i (l.map f) =
      (scanFrom (fun _ => true) win i l).map f := by
    induction l with
    | nil => exact fun _ => rfl
    | cons a l ih =>
      intro i
      simp only [List.map_cons, scanFrom, if_true, ih]
      split <;> split <;> rfl
  exact hfrom (-1)

/-- The items of entries whose values can be converted. -/
theorem sortedItems_map {order : List Entry} (hall : ∀ e ∈ order, Rewrapped e)
    (hread : ∀ e ∈ order, Readable e.2) :
    sortedItems (order.map sortedPair) = .ok (order.map keyedEntry) := by
  induction order with
  | nil => rfl
  | cons e order ih =>
    obtain ⟨he, hall⟩ := List.forall_mem_cons.mp hall
    obtain ⟨hr, hread⟩ := List.forall_mem_cons.mp hread
    rw [List.map_cons, sortedItems, sortedItem_sortedPair he hr, ih hall hread]
    rfl

/-- An object is made of each entry that needs no change. -/
theorem madeOf_of_rewrapped {es : List Entry} (hall : ∀ e ∈ es, Rewrapped e) :
    madeOf es = es.map sortedPair ∧ (es.all fun e => (load (keyVal e)).isSome) = true := by
  have hload : ∀ e ∈ es, load (keyVal e) = some (sortedPair e) := fun e he =>
    load_keyVal (hall e he)
  constructor
  · rw [madeOf, List.filterMap_congr hload, ← List.filterMap_eq_map]
    rfl
  · rw [List.all_eq_true]
    intro e he
    rw [hload e he]
    rfl

/-! ## What a complete listing says -/

section

variable [UnstableSort] {sortby : Bytes} {ascending : Bool} {win : Window} {es all : List Entry}

/-- The objects are sorted exactly if this is defined. -/
theorem stdSort_eq_ok {compare : RValue → RValue → Except Failure Bool} {xs ys : List RValue} :
    stdSort compare xs = .ok ys ↔ Sortable compare xs ∧
      UnstableSort.sort (fun a b => (compare a b).toOption.getD false) xs = ys := by
  unfold stdSort
  split
  · next h => simp [h]
  · next h => simp [h]

/-- Sorting and turning around keep the objects. -/
theorem arranged_perm {sortable : Bool} {xs order : List RValue}
    (h : arranged sortby ascending sortable xs = .ok order) : order.Perm xs := by
  obtain ⟨ys, hys, rfl⟩ := of_map_ok h
  have hturn : (if ascending then ys else ys.reverse).Perm ys := by
    split
    · exact List.Perm.refl ys
    · exact ys.reverse_perm
  refine hturn.trans ?_
  cases sortable with
  | false =>
    cases hys
    exact List.Perm.refl xs
  | true =>
    rw [if_pos rfl, stdSort_eq_ok] at hys
    rw [← hys.2]
    exact UnstableSort.perm _ _

/-- A listing that gives an item for each of some entries has met no others, made an object
of each, and converted it. -/
theorem of_sortedListing (hsub : es.Sublist all) (hall : ∀ e ∈ all, Listable e)
    {order : List Entry} (hperm : order.Perm all)
    (h : sortedListing sortby ascending ⟨0, -1⟩ [] es = .ok (true, order.map keyedEntry)) :
    es = all ∧ (∀ e ∈ all, e.2.head? = some 123 ∧ Readable e.2) ∧ all.length ≤ 2 ^ 31 := by
  rw [sortedListing_nil] at h
  split at h
  · next hconvert =>
    obtain ⟨xs, hxs, h⟩ := of_bind_ok h
    obtain ⟨items, hitems, heq⟩ := of_map_ok h
    cases heq
    have hvalid : (Window.mk 0 (-1)).Valid := ⟨by decide, by decide, by decide, by decide⟩
    have hscan := @scan_sublist_slice _ (fun _ => true) ⟨0, -1⟩ hvalid xs
    rw [whole_slice, List.filter_true] at hscan
    obtain ⟨hle, hforall⟩ := sortedItems_length hitems
    rw [List.length_map, hperm.length_eq] at hle
    have hxslen := (arranged_perm hxs).length_eq
    have hmade : (madeOf es).length ≤ es.length := List.length_filterMap_le _ _
    have hscanlen := hscan.length_le
    have heslen := hsub.length_le
    have hes : es = all := hsub.eq_of_length (by omega)
    have hwhole := hscan.eq_of_length (by omega)
    subst hes
    rw [hwhole] at hitems hforall
    have hitem := hforall (by rw [List.length_map, hperm.length_eq]; omega)
    refine ⟨rfl, fun e he => ?_, ?_⟩
    · obtain ⟨x, hx, hload⟩ := of_length_madeOf (by omega) e he
      obtain ⟨w, hw, hsorted⟩ := hitem x ((arranged_perm hxs).mem_iff.mpr hx)
      obtain ⟨e', he', rfl⟩ := List.mem_map.mp hw
      have hlistable := hall e he
      have hbrace : e.2.head? = some 123 := by
        by_contra hbrace
        obtain ⟨raw, o, rfl⟩ := load_keyVal_quoted hbrace hlistable.ne_nil hload
        exact sortedItem_ne_keyedEntry (hall e' (hperm.subset he')) hsorted
      have hpair := load_keyVal (hlistable.rewrapped hbrace)
      rw [hload] at hpair
      cases hpair
      exact ⟨hbrace, (ofRValue_sortedPair hlistable.isJson).mp (hconvert _ hx)⟩
    · have hfits := (scan_all_eq_slice_iff hvalid).mp (hwhole.trans (whole_slice xs).symm)
      rw [whole_slice] at hfits
      rcases hfits with hnil | hfits
      · have hzero := congrArg List.length hnil
        rw [List.length_nil] at hzero
        omega
      · have hlen : xs.length ≤ 2 ^ 31 := by simpa [Window.Fits] using hfits
        omega
  · cases h

/-- What is listed has been brought into an order. -/
theorem arranged_of_sortedListing (hall : ∀ e ∈ es, Rewrapped e) {r : Bool × List WValue}
    (h : sortedListing sortby ascending win [] es = .ok r) :
    ∃ xs, arranged sortby ascending (decide (sortby ≠ [])) (es.map sortedPair) = .ok xs := by
  obtain ⟨hmade, hsome⟩ := madeOf_of_rewrapped hall
  rw [sortedListing_nil, hsome, Bool.and_true, hmade] at h
  split at h
  · obtain ⟨xs, hxs, -⟩ := of_bind_ok h
    exact ⟨xs, hxs⟩
  · cases h

/-- What is listed of entries that can all be sorted and converted. -/
theorem sortedListing_of_arranged (hall : ∀ e ∈ es, Rewrapped e)
    (hread : ∀ e ∈ es, Readable e.2) {xs : List RValue}
    (hxs : arranged sortby ascending (decide (sortby ≠ [])) (es.map sortedPair) = .ok xs) :
    ∃ order : List Entry, order.Perm es ∧ xs = order.map sortedPair ∧
      ∀ win, sortedListing sortby ascending win [] es =
        .ok (true, (scan (fun _ => true) win order).map keyedEntry) := by
  obtain ⟨hmade, hsome⟩ := madeOf_of_rewrapped hall
  have hconvert : ∀ x ∈ madeOf es, (WValue.ofRValue x).isOk = true := by
    rw [hmade]
    intro x hx
    obtain ⟨e, he, rfl⟩ := List.mem_map.mp hx
    exact (ofRValue_sortedPair (hall e he).json).mpr (hread e he)
  obtain ⟨order, rfl, hperm⟩ : ∃ order, xs = List.map sortedPair order ∧ order.Perm es := by
    have himage := congrFun (congrFun (List.eq_map_comp_perm sortedPair) xs) es
    exact (iff_of_eq himage).mpr (arranged_perm hxs)
  refine ⟨order, hperm, rfl, fun win => ?_⟩
  rw [sortedListing_nil, if_pos hconvert, hsome, Bool.and_true, hmade, hxs]
  change (sortedItems (scan _ win (order.map sortedPair))).map _ = _
  have hmem : ∀ e ∈ scan (fun _ => true) win order, e ∈ es := fun e he =>
    hperm.subset (scanFrom_subset (-1) order he)
  rw [scan_map, sortedItems_map (fun e he => hall e (hmem e he)) fun e he => hread e (hmem e he)]
  rfl

end

/-! ## The order of the entries -/

/-- The field of a value by which the entries are sorted. -/
def sortField (sortby : Bytes) (e : Entry) : Option RValue :=
  (load e.2).bind fun v => v.child? (.field sortby)

theorem sorterOf_sortedPair (sortby : Bytes) (e : Entry) :
    sorterOf sortby (sortedPair e) = sortField sortby e := by
  have hvalue : (sortedPair e).child? (.field (ascii "value")) =
      some ((load e.2).getD .null) := by
    change [(ascii "value", (load e.2).getD .null), (ascii "key", .string e.1)].lookup
      (ascii "value") = _
    exact List.lookup_cons_self
  rw [sorterOf, hvalue, sortField]
  cases load e.2 <;> rfl

section

variable {κ : Type} [LinearOrder κ] (value : Option RValue → κ) (sortby : Bytes)
  (ascending : Bool)

/-- The first entry may stand in front of the second one. -/
def StandsBefore (a b : Entry) : Prop :=
  if ascending then value (sortField sortby a) ≤ value (sortField sortby b)
  else value (sortField sortby b) ≤ value (sortField sortby a)

/-- The listing without a window gives the entries in their order, and a window gives its slice
of this. -/
def ListsSorted (es : List Entry) (win : Window)
    (list : Window → Except Failure (Bool × List WValue)) : Prop :=
  ∃ order : List Entry, order.Perm es ∧ order.Pairwise (StandsBefore value sortby ascending) ∧
    list ⟨0, -1⟩ = .ok (true, order.map keyedEntry) ∧
    list win = .ok (true, (win.slice order).map keyedEntry)

variable {value sortby ascending} {ys : List RValue} {order : List Entry}

/-- The entries are in their order exactly if the objects were sorted by their fields. -/
theorem pairwise_standsBefore_iff
    (horder : (if ascending then ys else ys.reverse) = order.map sortedPair) :
    order.Pairwise (StandsBefore value sortby ascending) ↔
      ys.Pairwise fun x y => value (sorterOf sortby x) ≤ value (sorterOf sortby y) := by
  have hmap : order.Pairwise (StandsBefore value sortby ascending) ↔
      (order.map sortedPair).Pairwise fun x y => if ascending
        then value (sorterOf sortby x) ≤ value (sorterOf sortby y)
        else value (sorterOf sortby y) ≤ value (sorterOf sortby x) := by
    rw [List.pairwise_map]
    simp only [sorterOf_sortedPair]
    rfl
  rw [hmap, ← horder]
  cases ascending with
  | true => simp
  | false => simp [List.pairwise_reverse]

variable (value sortby) in
/-- When every sort lists the accepted entries in their order: the prefix leaves none out, each
value starts with a brace and can be converted, the counters do not overflow, and the order of
any two entries is kept; without a field to sort by they stay in the order of their keys. -/
structure SortsInto (keeps : Entry → Entry → Prop) (store : Store) (wild : Bytes) (win : Window) :
    Prop where
  complete : ∀ e ∈ store.entries, accepts wild e = true → starPrefix wild <+: e.1
  braces : ∀ e ∈ accepted store wild, e.2.head? = some 123
  reads : ∀ e ∈ accepted store wild, Readable e.2
  counted : (accepted store wild).length ≤ 2 ^ 31
  fits : win.slice (accepted store wild) = [] ∨ win.Fits (accepted store wild).length
  ordered : (accepted store wild).Pairwise fun a b =>
    if sortby = [] then value (sortField sortby a) ≤ value (sortField sortby b) else keeps a b

variable (value sortby) in
/-- The sort is defined, and keeps the order of any two entries. -/
def SortKeeps (es : List Entry) : Prop :=
  Sortable (jsonComparer sortby) (es.map sortedPair) ∧
    (es.map sortedPair).Pairwise fun x y =>
      ((jsonComparer sortby y x).toOption.getD false = false →
        value (sorterOf sortby x) ≤ value (sorterOf sortby y)) ∧
      ((jsonComparer sortby x y).toOption.getD false = false →
        value (sorterOf sortby y) ≤ value (sorterOf sortby x))

theorem slice_length_congr {α β : Type} {win : Window} {l : List α} {l' : List β}
    (h : l.length = l'.length) : (win.slice l).length = (win.slice l').length := by
  unfold Window.slice
  split <;> simp [h]

/-- The order of the sort, and the slices of its listing. -/
theorem listsSorted_iff [UnstableSort] {w : World} {es : List Entry} {win : Window}
    (hwin : win.Valid) (hstore : ∀ e ∈ es, e ∈ w.node.db.entries)
    (hall : ∀ e ∈ es, Listable e) (hgood : ∀ e ∈ es, e.2.head? = some 123 ∧ Readable e.2)
    (hcount : es.length ≤ 2 ^ 31)
    (hys : (if decide (sortby ≠ []) then stdSort (jsonComparer sortby) (es.map sortedPair)
      else .ok (es.map sortedPair)) = .ok ys) :
    ListsSorted value sortby ascending es win
        (fun win => sortedListing sortby ascending win [] es) ↔
      (ys.Pairwise fun x y => value (sorterOf sortby x) ≤ value (sorterOf sortby y)) ∧
        (win.slice es = [] ∨ win.Fits es.length) := by
  have hxs : arranged sortby ascending (decide (sortby ≠ [])) (es.map sortedPair) =
      .ok (if ascending then ys else ys.reverse) := by
    rw [arranged, hys]
    rfl
  obtain ⟨order, hperm, horder, hlist⟩ := sortedListing_of_arranged
    (fun e he => (hall e he).rewrapped (hgood e he).1) (fun e he => (hgood e he).2) hxs
  rw [← pairwise_standsBefore_iff horder]
  have hwhole : (Window.mk 0 (-1)).Valid := ⟨by decide, by decide, by decide, by decide⟩
  have hscan : scan (fun _ => true) ⟨0, -1⟩ order = order := by
    have h := scan_all_eq_slice hwhole
      (show (Window.mk 0 (-1)).Fits order.length by
        simpa [Window.Fits, hperm.length_eq] using hcount)
    rwa [whole_slice] at h
  have hmem : ∀ {l : List Entry}, l ⊆ order → ∀ e ∈ l, e ∈ w.node.db.entries := fun hl e he =>
    hstore e (hperm.subset (hl he))
  have hslice : scan (fun _ => true) win order = win.slice order ↔
      win.slice es = [] ∨ win.Fits es.length := by
    rw [scan_all_eq_slice_iff hwin, ← List.length_eq_zero_iff, ← List.length_eq_zero_iff,
      slice_length_congr hperm.length_eq, hperm.length_eq]
  rw [← hslice]
  constructor
  · rintro ⟨order', hperm', hpairs, hlist', hwindow⟩
    simp only [hlist, hscan, Except.ok.injEq, Prod.mk.injEq, true_and] at hlist' hwindow
    obtain rfl : order = order' := keyed_inj (hmem (List.Subset.refl order))
      (fun e he => hstore e (hperm'.subset he)) hlist'
    exact ⟨hpairs, keyed_inj (hmem (scanFrom_subset (-1) order))
      (hmem (slice_sublist win order).subset) hwindow⟩
  · rintro ⟨hpairs, hslice⟩
    exact ⟨order, hperm, hpairs, by simp only [hlist, hscan],
      by simp only [hlist, hslice]⟩

/-- Every sort lists the accepted entries in their order exactly if nothing is lost and the
sort keeps the order of any two of them. -/
theorem sortedListing_sorts_iff {keeps : Entry → Entry → Prop} {w : World} {wild : Bytes}
    {win : Window} (hwin : win.Valid) (hall : ∀ e ∈ accepted w.node.db wild, Listable e)
    (hkeeps : SortKeeps value sortby (accepted w.node.db wild) ↔
      (accepted w.node.db wild).Pairwise keeps) :
    (∀ sorting : UnstableSort, ListsSorted value sortby ascending (accepted w.node.db wild) win
        (fun win => @sortedListing sorting sortby ascending win [] (matching w.node.db wild))) ↔
      SortsInto value sortby keeps w.node.db wild win := by
  have hstore : ∀ e ∈ accepted w.node.db wild, e ∈ w.node.db.entries := fun e he =>
    (List.mem_filter.mp he).1
  constructor
  · intro h
    obtain ⟨order, hperm, -, hwhole, -⟩ := h .insertion
    obtain ⟨hes, hgood, hcount⟩ := @of_sortedListing .insertion sortby ascending _ _
      (matching_sublist_accepted _ _) hall order hperm hwhole
    rw [hes] at h
    have hlists := fun sorting ys => @listsSorted_iff κ _ value sortby ascending ys sorting w _
      win hwin hstore hall hgood hcount
    have hcomplete := matching_eq_accepted_iff.mp hes
    have hbraces := fun e he => (hgood e he).1
    have hreads := fun e he => (hgood e he).2
    by_cases hsort : sortby = []
    · obtain ⟨hpairs, hfits⟩ := (hlists .insertion (List.map sortedPair _) (by
        rw [hsort]; rfl)).mp (h .insertion)
      rw [List.pairwise_map] at hpairs
      simp only [sorterOf_sortedPair] at hpairs
      exact ⟨hcomplete, hbraces, hreads, hcount, hfits, by simpa only [if_pos hsort] using hpairs⟩
    · obtain ⟨xs, hxs⟩ := @arranged_of_sortedListing .insertion _ _ _ _
        (fun e he => (hall e he).rewrapped (hbraces e he)) _ (hes ▸ hwhole)
      obtain ⟨ys, hys, -⟩ := of_map_ok hxs
      rw [if_pos (by simpa using hsort)] at hys
      obtain ⟨hsortable, -⟩ := (@stdSort_eq_ok .insertion _ _ _).mp hys
      have hsorted := fun sorting => (hlists sorting _ (by
        rw [if_pos (by simpa using hsort)]
        exact (@stdSort_eq_ok sorting _ _ _).mpr ⟨hsortable, rfl⟩)).mp (h sorting)
      have hpairs := (UnstableSort.forall_pairwise_iff hsortable.strictWeak).mp fun sorting =>
        (hsorted sorting).1
      refine ⟨hcomplete, hbraces, hreads, hcount, (hsorted .insertion).2, ?_⟩
      simpa only [if_neg hsort] using hkeeps.mp ⟨hsortable, hpairs⟩
  · intro h sorting
    rw [matching_eq_accepted_iff.mpr h.complete]
    have hlists := fun ys => @listsSorted_iff κ _ value sortby ascending ys sorting w _
      win hwin hstore hall (fun e he => ⟨h.braces e he, h.reads e he⟩) h.counted
    have hordered := h.ordered
    by_cases hsort : sortby = []
    · refine (hlists (List.map sortedPair _) (by rw [hsort]; rfl)).mpr ⟨?_, h.fits⟩
      rw [List.pairwise_map]
      simpa only [sorterOf_sortedPair, if_pos hsort] using hordered
    · simp only [if_neg hsort] at hordered
      obtain ⟨hsortable, hpairs⟩ := hkeeps.mpr hordered
      refine (hlists _ (by
        rw [if_pos (by simpa using hsort)]
        exact stdSort_eq_ok.mpr ⟨hsortable, rfl⟩)).mpr ⟨?_, h.fits⟩
      exact (UnstableSort.forall_pairwise_iff hsortable.strictWeak).mpr hpairs sorting

end

/-! ## Numbers and strings -/

/-- The number in a field. -/
def numberIn : Option RValue → ℚ
  | some (.number token) => (tokenValue token).getD 0
  | _ => 0

/-- The text in a field. -/
def textIn : Option RValue → Bytes
  | some (.string raw) => unescape raw
  | _ => []

/-- The field is a decimal number. -/
def IsNumber (x : Option RValue) : Prop :=
  ∃ token q, x = some (.number token) ∧ tokenValue token = some q

/-- The field is a string. -/
def IsText (x : Option RValue) : Prop := ∃ raw, x = some (.string raw)

/-- Both numbers fit an `int`, and if they differ so do their integral parts, in the same
order. -/
def KeepsNumbers (x y : Option RValue) : Prop :=
  ∃ l r z z', x = some (.number l) ∧ y = some (.number r) ∧ sorterInt l = .ok z ∧
    sorterInt r = .ok z' ∧ (numberIn x < numberIn y → z < z') ∧
      (numberIn y < numberIn x → z' < z)

section

variable {sortby : Bytes} {es : List Entry} {x y : Option RValue}

/-- Two numbers are compared exactly if both fit an `int`. -/
theorem compareSorters_number_isOk {l r : Bytes} :
    (compareSorters (some (.number l)) (some (.number r))).isOk = true ↔
      ∃ z z', sorterInt l = .ok z ∧ sorterInt r = .ok z' := by
  change (compareNumeric (.number l) (.number r)).isOk = true ↔ _
  rw [compareNumeric_eq]
  cases sorterInt l with
  | error e => simp [Except.bind, Except.isOk, Except.toBool]
  | ok z =>
    cases sorterInt r with
    | error e => simp [Except.bind, Except.isOk, Except.toBool]
    | ok z' => simp [Except.bind, Except.isOk, Except.toBool]

/-- The comparison of numbers that fit an `int`. -/
theorem compareSorters_number {l r : Bytes} {z z' : ℤ} (hl : sorterInt l = .ok z)
    (hr : sorterInt r = .ok z') :
    compareSorters (some (.number l)) (some (.number r)) = .ok (decide (z < z')) := by
  change compareNumeric (.number l) (.number r) = _
  rw [compareNumeric_eq, hl, hr]
  rfl

/-- Any two numbers are compared, and their order is kept, exactly if their integral parts
keep it. -/
theorem keepsNumbers_iff (hx : IsNumber x) (hy : IsNumber y) :
    (((compareSorters x y).isOk = true ∧ (compareSorters y x).isOk = true) ∧
      ((compareSorters y x).toOption.getD false = false → numberIn x ≤ numberIn y) ∧
      ((compareSorters x y).toOption.getD false = false → numberIn y ≤ numberIn x)) ↔
      KeepsNumbers x y := by
  obtain ⟨l, q, rfl, hl⟩ := hx
  obtain ⟨r, q', rfl, hr⟩ := hy
  constructor
  · rintro ⟨⟨hok, -⟩, hless, hgreater⟩
    obtain ⟨z, z', hz, hz'⟩ := compareSorters_number_isOk.mp hok
    rw [compareSorters_number hz' hz] at hless
    rw [compareSorters_number hz hz'] at hgreater
    refine ⟨l, r, z, z', rfl, rfl, hz, hz', fun hlt => ?_, fun hlt => ?_⟩
    · by_contra hnot
      exact absurd (hgreater (by simpa [Except.toOption] using hnot)) hlt.not_ge
    · by_contra hnot
      exact absurd (hless (by simpa [Except.toOption] using hnot)) hlt.not_ge
  · rintro ⟨l', r', z, z', hl', hr', hz, hz', hless, hgreater⟩
    cases hl'
    cases hr'
    refine ⟨⟨compareSorters_number_isOk.mpr ⟨z, z', hz, hz'⟩,
      compareSorters_number_isOk.mpr ⟨z', z, hz', hz⟩⟩, fun hnot => ?_, fun hnot => ?_⟩
    · rw [compareSorters_number hz' hz] at hnot
      by_contra hlt
      exact absurd (hgreater (not_le.mp hlt)) (by simpa [Except.toOption] using hnot)
    · rw [compareSorters_number hz hz'] at hnot
      by_contra hlt
      exact absurd (hless (not_le.mp hlt)) (by simpa [Except.toOption] using hnot)

/-- Numbers that fit an `int` can be sorted by their integral parts. -/
theorem strictWeakOn_of_fits (h : ∀ e ∈ es, ∃ token z,
    sortField sortby e = some (.number token) ∧ sorterInt token = .ok z) :
    StrictWeakOn (fun a b => (jsonComparer sortby a b).toOption.getD false)
      (es.map sortedPair) := by
  have hnumber : ∀ x ∈ es.map sortedPair, ∃ token z,
      sorterOf sortby x = some (.number token) ∧ sorterInt token = .ok z := by
    intro x hx
    obtain ⟨e, he, rfl⟩ := List.mem_map.mp hx
    rw [sorterOf_sortedPair]
    exact h e he
  have hfits : ∀ x ∈ es.map sortedPair, ∀ token, sorterOf sortby x = some (.number token) →
      ∃ z, sorterInt token = .ok z := by
    intro x hx token htoken
    obtain ⟨token', z, htoken', hz⟩ := hnumber x hx
    rw [htoken] at htoken'
    cases htoken'
    exact ⟨z, hz⟩
  refine (orderedWithin_jsonComparer hfits).strictWeakOn_iff.mpr fun a ha b hb c hc _ => ?_
  obtain ⟨_, _, hatoken, -⟩ := hnumber a ha
  obtain ⟨_, _, hctoken, -⟩ := hnumber c hc
  rw [hatoken, hctoken]
  rfl

/-- The sort by a number keeps the order of any two entries exactly if the integral parts do. -/
theorem sortKeeps_number_iff (h : ∀ e ∈ es, IsNumber (sortField sortby e)) :
    SortKeeps numberIn sortby es ↔
      es.Pairwise fun a b => KeepsNumbers (sortField sortby a) (sortField sortby b) := by
  have hpair : SortKeeps numberIn sortby es ↔
      StrictWeakOn (fun a b => (jsonComparer sortby a b).toOption.getD false)
        (es.map sortedPair) ∧
      es.Pairwise fun a b => KeepsNumbers (sortField sortby a) (sortField sortby b) := by
    have hkeeps : (es.Pairwise fun a b => KeepsNumbers (sortField sortby a) (sortField sortby b)) ↔
        (es.map sortedPair).Pairwise (fun x y => (jsonComparer sortby x y).isOk = true ∧
          (jsonComparer sortby y x).isOk = true) ∧
        (es.map sortedPair).Pairwise fun x y =>
          ((jsonComparer sortby y x).toOption.getD false = false →
            numberIn (sorterOf sortby x) ≤ numberIn (sorterOf sortby y)) ∧
          ((jsonComparer sortby x y).toOption.getD false = false →
            numberIn (sorterOf sortby y) ≤ numberIn (sorterOf sortby x)) := by
      rw [← List.pairwise_and_iff, List.pairwise_map]
      refine List.Pairwise.iff_of_mem fun {a b} ha hb => ?_
      simp only [jsonComparer_eq, sorterOf_sortedPair]
      exact (keepsNumbers_iff (h a ha) (h b hb)).symm
    rw [hkeeps]
    constructor
    · rintro ⟨⟨hcomparable, hstrict⟩, hpairs⟩
      exact ⟨hstrict, hcomparable, hpairs⟩
    · rintro ⟨hstrict, hcomparable, hpairs⟩
      exact ⟨⟨hcomparable, hstrict⟩, hpairs⟩
  rw [hpair, and_iff_right_iff_imp]
  intro hkeeps
  have hboth : es.Pairwise fun a b =>
      (∃ token z, sortField sortby a = some (.number token) ∧ sorterInt token = .ok z) ∧
      ∃ token z, sortField sortby b = some (.number token) ∧ sorterInt token = .ok z :=
    hkeeps.imp fun hab => by
      obtain ⟨l, r, z, z', hl, hr, hz, hz', -⟩ := hab
      exact ⟨⟨l, z, hl, hz⟩, r, z', hr, hz'⟩
  cases es with
  | nil => exact strictWeakOn_of_fits fun e he => by cases he
  | cons a es =>
    cases es with
    | nil => exact StrictWeakOn.singleton (jsonComparer_irrefl sortby _)
    | cons b es =>
      obtain ⟨hfirst, -⟩ := List.pairwise_cons.mp hboth
      refine strictWeakOn_of_fits fun e he => ?_
      rcases List.mem_cons.mp he with rfl | he
      · exact (hfirst b List.mem_cons_self).1
      · exact (hfirst e he).2

/-- The sort by a string keeps the order of any two entries. -/
theorem sortKeeps_text (h : ∀ e ∈ es, IsText (sortField sortby e)) :
    SortKeeps textIn sortby es := by
  have htext : ∀ x ∈ es.map sortedPair, IsText (sorterOf sortby x) := by
    intro x hx
    obtain ⟨e, he, rfl⟩ := List.mem_map.mp hx
    rw [sorterOf_sortedPair]
    exact h e he
  have hcompare : ∀ x ∈ es.map sortedPair, ∀ y ∈ es.map sortedPair, jsonComparer sortby x y =
      .ok (decide (textIn (sorterOf sortby x) < textIn (sorterOf sortby y))) := by
    intro x hx y hy
    obtain ⟨raw, hraw⟩ := htext x hx
    obtain ⟨raw', hraw'⟩ := htext y hy
    rw [jsonComparer_eq, hraw, hraw']
    rfl
  have hpairs : ∀ {R : RValue → RValue → Prop}, (∀ x ∈ es.map sortedPair,
      ∀ y ∈ es.map sortedPair, R x y) → (es.map sortedPair).Pairwise R := fun hR =>
    List.pairwise_of_forall_mem_list fun x hx y hy => hR x hx y hy
  refine ⟨⟨hpairs fun x hx y hy => ?_, ?_⟩, hpairs fun x hx y hy => ?_⟩
  · rw [hcompare x hx y hy, hcompare y hy x hx]
    exact ⟨rfl, rfl⟩
  · refine (orderedWithin_jsonComparer fun x hx token htoken => ?_).strictWeakOn_iff.mpr
      fun x hx y hy z hz _ => ?_
    · obtain ⟨raw, hraw⟩ := htext x hx
      rw [hraw] at htoken
      cases htoken
    · obtain ⟨raw, hraw⟩ := htext x hx
      obtain ⟨raw', hraw'⟩ := htext z hz
      rw [hraw, hraw']
      rfl
  · rw [hcompare x hx y hy, hcompare y hy x hx]
    simp [Except.toOption]

end

/-! ## What is asked for -/

section

variable {faults : Faults} {c : Config} {n : Node} {w : World} {wild sortby : Bytes}
  {ascending : Bool} {win : Window}

/-- `getSorted` lists the entries it has met. -/
theorem getSorted_yields [UnstableSort] (hdb : c.dbOk = true)
    (hstar : startsWithStar wild = false) :
    Yields faults n (getSorted c wild sortby ascending win [])
      (sortedListing sortby ascending win [] (matching n.db wild)) := by
  unfold getSorted
  rw [← bind_ok_right (sortedListing _ _ _ _ _)]
  have hyields := @scanDb_yields faults n c wild _ _
    (fun store => sortedListing sortby ascending win []
      ((forwardRange store (starPrefix wild)).filter (accepts wild)))
    (fun r : Option (Bool × List WValue) => pure (r.getD (false, []))) .ok hdb hstar
    fun a => Yields.pure a
  rwa [forwardRange_eq] at hyields

/-- `getSorted` gives the entries in the order of their numbers, whatever the sort does with
equivalent objects, exactly if no entry is lost and the integral parts of any two numbers keep
their order. With strings in the field no condition on the order remains. -/
theorem getSorted_sorts_iff (hdb : c.dbOk = true) (hstar : startsWithStar wild = false)
    (hwin : win.Valid) (hall : ∀ e ∈ accepted w.node.db wild, Listable e) :
    ((∀ e ∈ accepted w.node.db wild, IsNumber (sortField sortby e)) →
      ((∀ sorting : UnstableSort,
          ListsSorted numberIn sortby ascending (accepted w.node.db wild) win fun win =>
            answer faults w (@getSorted sorting c wild sortby ascending win [])) ↔
        SortsInto numberIn sortby
          (fun a b => KeepsNumbers (sortField sortby a) (sortField sortby b))
          w.node.db wild win)) ∧
    ((∀ e ∈ accepted w.node.db wild, IsText (sortField sortby e)) →
      ((∀ sorting : UnstableSort,
          ListsSorted textIn sortby ascending (accepted w.node.db wild) win fun win =>
            answer faults w (@getSorted sorting c wild sortby ascending win [])) ↔
        SortsInto textIn sortby (fun _ _ => True) w.node.db wild win)) := by
  have hanswer : ∀ (sorting : UnstableSort) (win : Window),
      answer faults w (@getSorted sorting c wild sortby ascending win []) =
        @sortedListing sorting sortby ascending win [] (matching w.node.db wild) :=
    fun sorting win => (@getSorted_yields faults c w.node wild sortby ascending win sorting
      hdb hstar w rfl).1
  simp only [hanswer]
  constructor
  · intro hnumbers
    exact sortedListing_sorts_iff hwin hall (sortKeeps_number_iff hnumbers)
  · intro htexts
    refine sortedListing_sorts_iff hwin hall (iff_of_true (sortKeeps_text htexts) ?_)
    exact List.pairwise_of_forall fun _ _ => trivial

end

/-- A value with a number and a string in it. -/
def fieldsText (token text : Bytes) : Bytes :=
  ascii "\x7b\"n\":" ++ token ++ ascii ",\"s\":\"" ++ text ++ ascii "\"\x7d"

/-- Two entries with such values. -/
def textEntries (first second : Bytes) : List Entry :=
  [(ascii "k1", fieldsText first (ascii "y")), (ascii "k2", fieldsText second (ascii "x"))]

/-- The store of the two entries. -/
def twoNumbers (first second : Bytes) : Store :=
  OrderedMap.empty.insertAll (textEntries first second)

/-- The listing of the two entries by the field. -/
def listTwo (sorting : UnstableSort) (first second sortby : Bytes) (win : Window) :
    Except Failure (Bool × List WValue) :=
  answer noFaults (openDB uncachedOnly (twoNumbers first second))
    (@getSorted sorting uncachedOnly (ascii "k*") sortby true win [])

/-- The entry with the key and the two fields. -/
theorem listable_fieldsText {key token text : Bytes} (hkey : Plain key ∧ (0 : UInt8) ∉ key)
    (hvalue : (0 : UInt8) ∉ fieldsText token text)
    (hload : load (fieldsText token text) =
      some (.object [(ascii "n", .number token), (ascii "s", .string text)])) :
    Listable (key, fieldsText token text) ∧
      sortField (ascii "n") (key, fieldsText token text) = some (.number token) ∧
      sortField (ascii "s") (key, fieldsText token text) = some (.string text) := by
  refine ⟨⟨⟨_, hload⟩, hvalue, hkey.1, hkey.2⟩, ?_, ?_⟩
  · rw [sortField, hload]
    rfl
  · rw [sortField, hload]
    rfl

/-- The number 2.5 comes behind 1, and the second of them is the slice of the second entry. -/
theorem getSorted_sorts_two :
    (∀ sorting : UnstableSort, ListsSorted numberIn (ascii "n") true
      (accepted (twoNumbers (ascii "2.5") (ascii "1")) (ascii "k*")) ⟨1, 5⟩
      (listTwo sorting (ascii "2.5") (ascii "1") (ascii "n"))) ∧
    ∀ sorting : UnstableSort, ListsSorted textIn (ascii "s") true
      (accepted (twoNumbers (ascii "2.5") (ascii "1")) (ascii "k*")) ⟨1, 5⟩
      (listTwo sorting (ascii "2.5") (ascii "1") (ascii "s")) := by
  have hfirst : tokenValue (ascii "2.5") = some (((25 : ℕ) : ℚ) * 10 ^ (-1 : ℤ)) :=
    tokenValue_of_parts (by decide +kernel)
  have hsecond : tokenValue (ascii "1") = some (((1 : ℕ) : ℚ) * 10 ^ (0 : ℤ)) :=
    tokenValue_of_parts (by decide +kernel)
  have haccepted : accepted (twoNumbers (ascii "2.5") (ascii "1")) (ascii "k*") =
      textEntries (ascii "2.5") (ascii "1") := by decide +kernel
  obtain ⟨hlist₁, hnumber₁, htext₁⟩ := @listable_fieldsText (ascii "k1") (ascii "2.5") (ascii "y")
    (by decide +kernel) (by decide +kernel) (by cbv)
  obtain ⟨hlist₂, hnumber₂, htext₂⟩ := @listable_fieldsText (ascii "k2") (ascii "1") (ascii "x")
    (by decide +kernel) (by decide +kernel) (by cbv)
  have hboth : ∀ {P : Entry → Prop}, P (ascii "k1", fieldsText (ascii "2.5") (ascii "y")) →
      P (ascii "k2", fieldsText (ascii "1") (ascii "x")) →
      ∀ e ∈ accepted (twoNumbers (ascii "2.5") (ascii "1")) (ascii "k*"), P e := by
    intro P h₁ h₂
    rw [haccepted]
    simp [textEntries, h₁, h₂]
  have h := fun sortby => @getSorted_sorts_iff noFaults uncachedOnly
    (openDB uncachedOnly (twoNumbers (ascii "2.5") (ascii "1"))) (ascii "k*") sortby true ⟨1, 5⟩
    rfl rfl ⟨by decide, by decide, by decide, by decide⟩ (hboth hlist₁ hlist₂)
  have hsorts : ∀ {κ : Type} [LinearOrder κ] {value : Option RValue → κ} {sortby : Bytes}
      {keeps : Entry → Entry → Prop}, sortby ≠ [] →
      keeps (ascii "k1", fieldsText (ascii "2.5") (ascii "y"))
        (ascii "k2", fieldsText (ascii "1") (ascii "x")) →
      SortsInto value sortby keeps (twoNumbers (ascii "2.5") (ascii "1")) (ascii "k*") ⟨1, 5⟩ := by
    intro κ _ value sortby keeps hsort hkeeps
    refine ⟨by decide +kernel, hboth rfl rfl, hboth (by decide +kernel) (by decide +kernel),
      by decide +kernel, by decide +kernel, ?_⟩
    rw [haccepted]
    simpa [textEntries, hsort] using hkeeps
  constructor
  · refine ((h (ascii "n")).1 (hboth ⟨_, _, hnumber₁, hfirst⟩ ⟨_, _, hnumber₂, hsecond⟩)).mpr
      (hsorts (by decide) ?_)
    rw [hnumber₁, hnumber₂]
    refine ⟨_, _, 2, 1, rfl, rfl, by decide +kernel, by decide +kernel, ?_, ?_⟩
    · intro hlt
      simp only [numberIn, hfirst, hsecond, Option.getD_some] at hlt
      norm_num at hlt
    · exact fun _ => by decide
  · exact ((h (ascii "s")).2 (hboth ⟨_, htext₁⟩ ⟨_, htext₂⟩)).mpr (hsorts (by decide) trivial)

/-- The numbers 1.5 and 1.2 have one integral part, so that a sort may leave them as they are. -/
theorem not_listsSorted_fractions : ¬ListsSorted numberIn (ascii "n") true
    (accepted (twoNumbers (ascii "1.5") (ascii "1.2")) (ascii "k*")) ⟨0, -1⟩
    (listTwo .insertion (ascii "1.5") (ascii "1.2") (ascii "n")) := by
  have hfirst : tokenValue (ascii "1.5") = some (((15 : ℕ) : ℚ) * 10 ^ (-1 : ℤ)) :=
    tokenValue_of_parts (by decide +kernel)
  have hsecond : tokenValue (ascii "1.2") = some (((12 : ℕ) : ℚ) * 10 ^ (-1 : ℤ)) :=
    tokenValue_of_parts (by decide +kernel)
  have haccepted : accepted (twoNumbers (ascii "1.5") (ascii "1.2")) (ascii "k*") =
      textEntries (ascii "1.5") (ascii "1.2") := by decide +kernel
  have hmatching : matching (twoNumbers (ascii "1.5") (ascii "1.2")) (ascii "k*") =
      accepted (twoNumbers (ascii "1.5") (ascii "1.2")) (ascii "k*") := by decide +kernel
  obtain ⟨hlist₁, hnumber₁, -⟩ := @listable_fieldsText (ascii "k1") (ascii "1.5") (ascii "y")
    (by decide +kernel) (by decide +kernel) (by cbv)
  obtain ⟨hlist₂, hnumber₂, -⟩ := @listable_fieldsText (ascii "k2") (ascii "1.2") (ascii "x")
    (by decide +kernel) (by decide +kernel) (by cbv)
  have hlisted : listTwo .insertion (ascii "1.5") (ascii "1.2") (ascii "n") = fun win =>
      @sortedListing .insertion (ascii "n") true win []
        (accepted (twoNumbers (ascii "1.5") (ascii "1.2")) (ascii "k*")) := by
    rw [← hmatching]
    exact funext fun win => (@getSorted_yields noFaults uncachedOnly
      (openDB uncachedOnly (twoNumbers (ascii "1.5") (ascii "1.2"))).node (ascii "k*")
      (ascii "n") true win .insertion rfl rfl _ rfl).1
  have hsorted : @stdSort .insertion _ (jsonComparer (ascii "n"))
      ((textEntries (ascii "1.5") (ascii "1.2")).map sortedPair) =
      .ok ((textEntries (ascii "1.5") (ascii "1.2")).map sortedPair) := by
    refine (@stdSort_eq_ok .insertion _ _ _).mpr ⟨by decide +kernel, ?_⟩
    exact List.Pairwise.insertionSort_eq (List.pairwise_pair.mpr (by decide +kernel))
  rw [hlisted, haccepted]
  intro h
  have hpairs := ((@listsSorted_iff ℚ _ numberIn (ascii "n") true
    ((textEntries (ascii "1.5") (ascii "1.2")).map sortedPair) .insertion
    (openDB uncachedOnly (twoNumbers (ascii "1.5") (ascii "1.2"))) _ ⟨0, -1⟩
    ⟨by decide, by decide, by decide, by decide⟩ (by decide +kernel)
    (by simp [textEntries, hlist₁, hlist₂]) (by decide +kernel) (by decide)
    ((if_pos (by decide)).trans hsorted)).mp h).1
  rw [List.pairwise_map] at hpairs
  have hle := List.rel_of_pairwise_cons hpairs (List.mem_singleton_self _)
  simp only [sorterOf_sortedPair, hnumber₁, hnumber₂, numberIn, hfirst, hsecond,
    Option.getD_some] at hle
  norm_num at hle

end Quarks
