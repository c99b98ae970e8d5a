import Quarks.ElementCounts
import Quarks.Json.Splice

/-!
# Listings as text

The overloads into a string put keys and values between brackets as they are stored. A key
that needs an escape is not read back as itself, so the text is the listing only if no key
that is listed has a quote or a backslash.
-/

namespace Quarks

open Basis

/-! ## The text of an element -/

/-- An element of the text, parsed. -/
def parsedItem (key : Bytes) (x : RValue) : RValue :=
  .object [(ascii "key", .string key), (ascii "value", x)]

theorem textItem_eq (e : Entry) : textItem e = 123 :: 34 :: (ascii "key" ++ 34 :: 58 :: 34 ::
    (e.1 ++ 34 :: 44 :: 34 :: (ascii "value" ++ 34 :: 58 :: (e.2 ++ [125])))) := by
  simp [textItem, ascii]

theorem plain_key : Plain (ascii "key") := by decide +kernel

theorem plain_value : Plain (ascii "value") := by decide +kernel

section

variable {e : Entry} {v x : RValue} {fuel : ℕ} {rest r : Bytes}

/-- The last field of an element: its value, up to the closing brace. -/
theorem decode_valueField (hv : load e.2 = some v) (hzero : (0 : UInt8) ∉ e.2)
    (hfuel : 2 * e.2.length + 2 ≤ fuel) {o : List (Bytes × RValue)} :
    decodeObject (fuel + 1) (34 :: (ascii "value" ++ 34 :: 58 :: (e.2 ++ 125 :: rest))) =
      some (o, r) ↔ o = [(ascii "value", v)] ∧ r = rest := by
  obtain ⟨r₁, hr₁, hskip⟩ := decodeValue_spliced
    (endsValue_cons (Or.inr (Or.inr rfl)) rest : EndsValue (125 :: rest)) hv hzero hfuel
  rw [decodeObject_field plain_value]
  constructor
  · rintro ⟨y, r₂, hy, h⟩
    rw [hr₁] at hy
    cases hy
    rw [hskip] at h
    rcases h with ⟨h, rfl⟩ | ⟨t', o', h, -⟩
    · cases h
      exact ⟨rfl, rfl⟩
    · cases h
  · rintro ⟨rfl, rfl⟩
    exact ⟨v, r₁, hr₁, Or.inl ⟨hskip, rfl⟩⟩

/-- How the parser takes an element: its first field is the key, up to a quote. -/
theorem decode_textItem_iff : decodeValue (fuel + 3) (textItem e ++ rest) = some (x, r) ↔
    ∃ raw u, decodeString (e.1 ++ 34 :: 44 :: 34 :: (ascii "value" ++ 34 :: 58 ::
        (e.2 ++ 125 :: rest))) = some (raw, u) ∧
      (wsSkip u = 125 :: r ∧ x = .object [(ascii "key", .string raw)] ∨
        ∃ t o, wsSkip u = 44 :: t ∧ decodeObject (fuel + 1) (wsSkip t) = some (o, r) ∧
          x = .object ((ascii "key", .string raw) :: o)) := by
  have htext : textItem e ++ rest = 123 :: 34 :: (ascii "key" ++ 34 :: 58 :: 34 :: (e.1 ++
      34 :: 44 :: 34 :: (ascii "value" ++ 34 :: 58 :: (e.2 ++ 125 :: rest)))) := by
    rw [textItem_eq]
    simp
  generalize (e.1 ++ 34 :: 44 :: 34 :: (ascii "value" ++ 34 :: 58 :: (e.2 ++ 125 :: rest)) :
    Bytes) = s at htext ⊢
  have hquote : ∀ s : Bytes, wsSkip (34 :: s) = 34 :: s := wsSkip_of_ne (by decide)
  rw [htext, decodeValue_object (by rw [hquote]; simp), hquote, Option.map_eq_some_iff]
  constructor
  · rintro ⟨⟨o, r'⟩, ho, heq⟩
    cases heq
    obtain ⟨y, r₁, hy, h⟩ := (decodeObject_field plain_key).mp ho
    rw [hquote, decodeValue_string, Option.map_eq_some_iff] at hy
    obtain ⟨⟨raw, u⟩, hraw, heq⟩ := hy
    cases heq
    refine ⟨raw, u, hraw, ?_⟩
    rcases h with ⟨hskip, rfl⟩ | ⟨t', o', hskip, ho', rfl⟩
    · exact Or.inl ⟨hskip, rfl⟩
    · exact Or.inr ⟨t', o', hskip, ho', rfl⟩
  · rintro ⟨raw, u, hraw, h⟩
    have hvalue : decodeValue (fuel + 1) (wsSkip (34 :: s)) = some (.string raw, u) := by
      rw [hquote, decodeValue_string, hraw]
      rfl
    rcases h with ⟨hskip, rfl⟩ | ⟨t, o, hskip, ho, rfl⟩
    · exact ⟨([(ascii "key", .string raw)], r), (decodeObject_field plain_key).mpr
        ⟨_, u, hvalue, Or.inl ⟨hskip, rfl⟩⟩, rfl⟩
    · exact ⟨((ascii "key", .string raw) :: o, r), (decodeObject_field plain_key).mpr
        ⟨_, u, hvalue, Or.inr ⟨t, o, hskip, ho, rfl⟩⟩, rfl⟩

theorem length_textItem (e : Entry) : (textItem e).length = e.1.length + e.2.length + 19 := by
  rw [textItem_eq]
  simp [ascii]
  omega

/-- An element with a plain key is read as it is written. -/
theorem decode_textItem (hkey : Plain e.1) (hv : load e.2 = some v) (hzero : (0 : UInt8) ∉ e.2)
    (hfuel : 2 * (textItem e).length ≤ fuel) (rest : Bytes) :
    decodeValue fuel (textItem e ++ rest) = some (parsedItem e.1 v, rest) := by
  rw [length_textItem] at hfuel
  obtain ⟨fuel, rfl⟩ := Nat.exists_eq_add_of_le' (show 3 ≤ fuel by omega)
  refine decode_textItem_iff.mpr ⟨e.1, _, hkey.escaped.decodeString _, Or.inr
    ⟨_, [(ascii "value", v)], wsSkip_of_ne (by decide) _, ?_, rfl⟩⟩
  rw [wsSkip_of_ne (by decide)]
  exact (decode_valueField hv hzero (by omega)).mpr ⟨rfl, rfl⟩

/-- An element is read with its key only if the key is plain, and then as it is written. -/
theorem of_decode_textItem (hv : load e.2 = some v) (hzero : (0 : UInt8) ∉ e.2)
    (hfuel : 2 * (textItem e).length ≤ fuel)
    (h : decodeValue fuel (textItem e ++ rest) = some (x, r))
    (hkey : (x.field (ascii "key")).bind RValue.s = .ok e.1) :
    Plain e.1 ∧ x = parsedItem e.1 v ∧ r = rest := by
  have hfuel' := hfuel
  rw [length_textItem] at hfuel
  obtain ⟨fuel, rfl⟩ := Nat.exists_eq_add_of_le' (show 3 ≤ fuel by omega)
  obtain ⟨raw, u, hraw, hx⟩ := decode_textItem_iff.mp h
  have hfield : ∀ o, ((RValue.object ((ascii "key", .string raw) :: o)).field
      (ascii "key")).bind RValue.s = .ok (unescape raw) := by
    intro o
    rw [RValue.field, List.lookup_cons_self]
    rfl
  have hunescape : unescape raw = e.1 := by
    rcases hx with ⟨-, rfl⟩ | ⟨t, o, -, -, rfl⟩ <;>
    · rw [hfield] at hkey
      exact Except.ok.inj hkey
  obtain ⟨hplain, -⟩ := plain_of_decodeString hraw hunescape
  rw [decode_textItem hplain hv hzero hfuel'] at h
  cases h
  exact ⟨hplain, rfl, rfl⟩

end

/-! ## The text of a listing -/

/-- A stored text that is a JSON document: the parser accepts it, and it has no zero byte. -/
def ValidJson (value : Bytes) : Prop := IsJson value ∧ (0 : UInt8) ∉ value

instance (value : Bytes) : Decidable (ValidJson value) :=
  inferInstanceAs (Decidable (IsJson value ∧ (0 : UInt8) ∉ value))

/-- The element that is read for an entry. -/
def parsedEntry (e : Entry) : RValue := parsedItem e.1 ((load e.2).getD .null)

/-- The key that an element is read with. -/
def itemKey (x : RValue) : Except Failure Bytes := (x.field (ascii "key")).bind RValue.s

section

variable {es : List Entry} {e : Entry} {fuel : ℕ} {rest r : Bytes} {l : List RValue}

theorem load_of_validJson {value : Bytes} (h : ValidJson value) :
    load value = some ((load value).getD .null) := by
  obtain ⟨x, hx⟩ := Option.isSome_iff_exists.mp h.1
  rw [hx]
  rfl

/-- The texts of the elements start with a brace. -/
theorem wsSkip_items (e : Entry) (es : List Entry) (rest : Bytes) :
    wsSkip (joinComma ((e :: es).map textItem) ++ rest) =
      joinComma ((e :: es).map textItem) ++ rest := by
  cases es <;>
  · simp only [List.map_cons, List.map_nil, joinComma, textItem_eq, List.cons_append]
    exact wsSkip_of_ne (by decide) _

/-- The parser takes the elements with plain keys as they are written. -/
theorem decodeList_items (hplain : ∀ a ∈ e :: es, Plain a.1)
    (hjson : ∀ a ∈ e :: es, ValidJson a.2)
    (hfuel : 2 * (joinComma ((e :: es).map textItem)).length < fuel) :
    decodeList fuel (joinComma ((e :: es).map textItem) ++ 93 :: rest) =
      some ((e :: es).map parsedEntry, rest) := by
  induction es generalizing e fuel with
  | nil =>
    obtain ⟨fuel, rfl⟩ := Nat.exists_eq_add_of_le' (show 1 ≤ fuel by omega)
    have he := hjson e List.mem_cons_self
    simp only [List.map_cons, List.map_nil, joinComma] at hfuel ⊢
    exact decodeList_eq_some.mpr ⟨_, _, decode_textItem (hplain e List.mem_cons_self)
      (load_of_validJson he) he.2 (by omega) _, Or.inl ⟨wsSkip_of_ne (by decide) _, rfl⟩⟩
  | cons a es ih =>
    obtain ⟨fuel, rfl⟩ := Nat.exists_eq_add_of_le' (show 1 ≤ fuel by omega)
    have he := hjson e List.mem_cons_self
    have hskip := wsSkip_items a es (93 :: rest)
    have htail : ∀ fuel, 2 * (joinComma ((a :: es).map textItem)).length < fuel →
        decodeList fuel (joinComma ((a :: es).map textItem) ++ 93 :: rest) =
          some ((a :: es).map parsedEntry, rest) := fun fuel hfuel =>
      ih (fun b hb => hplain b (List.mem_cons_of_mem e hb))
        (fun b hb => hjson b (List.mem_cons_of_mem e hb)) hfuel
    simp only [List.map_cons, joinComma, List.length_append, List.length_cons,
      List.append_assoc, List.cons_append] at hfuel htail hskip ⊢
    refine decodeList_eq_some.mpr ⟨_, _, decode_textItem (hplain e List.mem_cons_self)
      (load_of_validJson he) he.2 (by omega) _, Or.inr ⟨_, _, wsSkip_of_ne (by decide) _, ?_,
      rfl⟩⟩
    rw [hskip]
    exact htail fuel (by omega)

theorem decodeList_ne_nil {s : Bytes} (h : decodeList fuel s = some (l, r)) : l ≠ [] := by
  cases fuel with
  | zero => cases h
  | succ fuel =>
    obtain ⟨x, r₁, -, ⟨-, rfl⟩ | ⟨t, l', -, -, rfl⟩⟩ := decodeList_eq_some.mp h <;>
      exact List.cons_ne_nil _ _

/-- If the parser takes one element for each entry, with its key, the keys are plain and the
list is closed behind them. -/
theorem of_decodeList_items {c : UInt8} (hc : c = 44 ∨ c = 93)
    (hjson : ∀ a ∈ e :: es, ValidJson a.2)
    (hfuel : 2 * (joinComma ((e :: es).map textItem)).length < fuel)
    (h : decodeList fuel (joinComma ((e :: es).map textItem) ++ c :: rest) = some (l, r))
    (hkeys : List.Forall₂ (fun x (a : Entry) => itemKey x = .ok a.1) l (e :: es)) :
    c = 93 ∧ ∀ a ∈ e :: es, Plain a.1 := by
  obtain ⟨fuel, rfl⟩ := Nat.exists_eq_add_of_le' (show 1 ≤ fuel by omega)
  have he := hjson e List.mem_cons_self
  induction es generalizing e fuel l with
  | nil =>
    simp only [List.map_cons, List.map_nil, joinComma] at h hfuel
    obtain ⟨x, r₁, hx, h⟩ := decodeList_eq_some.mp h
    cases hkeys with
    | @cons y _ l' _ hkey hkeys' =>
      cases hkeys'
      have hxy : x = y := by
        rcases h with ⟨-, h⟩ | ⟨t, l', -, -, h⟩ <;> exact (List.cons.inj h).1.symm
      subst hxy
      obtain ⟨hplain, -, rfl⟩ := of_decode_textItem (load_of_validJson he) he.2 (by omega) hx hkey
      refine ⟨?_, List.forall_mem_singleton.mpr hplain⟩
      rw [wsSkip_of_ne (by rcases hc with rfl | rfl <;> decide)] at h
      rcases h with ⟨h, -⟩ | ⟨t, l', -, hl, heq⟩
      · exact (List.cons.inj h).1
      · cases heq
        exact absurd rfl (decodeList_ne_nil hl)
  | cons b es ih =>
    have hskip := wsSkip_items b es (c :: rest)
    have hjson' : ∀ a ∈ b :: es, ValidJson a.2 := fun a ha => hjson a (List.mem_cons_of_mem e ha)
    have hih := fun fuel l hfuel h hkeys => @ih b l hjson' hkeys fuel hfuel h
      (hjson' b List.mem_cons_self)
    simp only [List.map_cons, joinComma, List.length_append, List.length_cons,
      List.append_assoc, List.cons_append] at h hfuel hskip hih
    obtain ⟨x, r₁, hx, h⟩ := decodeList_eq_some.mp h
    cases hkeys with
    | @cons y _ l' _ hkey hkeys' =>
      have hxy : x = y := by
        rcases h with ⟨-, h⟩ | ⟨t, l', -, -, h⟩ <;> exact (List.cons.inj h).1.symm
      subst hxy
      obtain ⟨hplain, -, rfl⟩ := of_decode_textItem (load_of_validJson he) he.2 (by omega) hx hkey
      rw [wsSkip_of_ne (by decide)] at h
      rcases h with ⟨h, -⟩ | ⟨t, l'', ht, hl, heq⟩
      · cases h
      · cases ht
        cases heq
        rw [hskip] at hl
        obtain ⟨fuel, rfl⟩ := Nat.exists_eq_add_of_le' (show 1 ≤ fuel by omega)
        obtain ⟨hclosed, hplains⟩ := hih fuel _ (by omega) hl hkeys'
        exact ⟨hclosed, List.forall_mem_cons.mpr ⟨hplain, hplains⟩⟩

end

/-- The text of a listing up to its elements. -/
def openResult : Bytes := 123 :: 34 :: (ascii "result" ++ [34, 58, 91])

theorem resultText_eq (es : List Entry) :
    resultText es = openResult ++ (joinComma (es.map textItem) ++ [93, 125]) := by
  simp [resultText, openResult, ascii]

section

variable {body : Bytes} {o : List (Bytes × RValue)} {l : List RValue}

/-- The document is read up to a first zero byte; none stands in front of the elements. -/
theorem load_openResult : load (openResult ++ body) = some (.object o) ↔
    ∃ x r₁ r, decodeValue (2 * (openResult.length + (cstr body).length)) (91 :: cstr body) =
        some (x, r₁) ∧ wsSkip r = [] ∧
      (wsSkip r₁ = 125 :: r ∧ o = [(ascii "result", x)] ∨ ∃ t o', wsSkip r₁ = 44 :: t ∧
        decodeObject (2 * (openResult.length + (cstr body).length)) (wsSkip t) = some (o', r) ∧
        o = (ascii "result", x) :: o') := by
  have hcstr : cstr (91 :: body) = 91 :: cstr body := List.takeWhile_cons_of_pos (by decide)
  have htext : openResult ++ body =
      123 :: 34 :: (ascii "result" ++ 34 :: 58 :: 91 :: body) := by
    simp [openResult]
  have hlen : (ascii "result").length + 4 + (91 :: cstr body).length =
      openResult.length + (cstr body).length := by
    simp [openResult, ascii]
    omega
  rw [htext, load_firstField (by decide +kernel) (by decide +kernel), hcstr,
    wsSkip_of_ne (by decide), hlen]

/-- The text behind the elements, and the fields that it adds. -/
structure ClosesResult (tail : Bytes) (o : List (Bytes × RValue)) : Prop where
  zero : (0 : UInt8) ∉ tail
  closes : ∀ fuel, 2 ≤ fuel → wsSkip tail = [125] ∧ o = [] ∨ ∃ t, wsSkip tail = 44 :: t ∧
    decodeObject fuel (wsSkip t) = some (o, [])

/-- What `getList` puts in place of the closing brace. -/
def errorTail : Bytes := ascii ",\"error\":\"runtime error\"\x7d"

theorem closesResult_brace : ClosesResult [125] [] :=
  ⟨by decide +kernel, fun _ _ => Or.inl ⟨rfl, rfl⟩⟩

theorem closesResult_error :
    ClosesResult errorTail [(ascii "error", .string (ascii "runtime error"))] := by
  refine ⟨by decide +kernel, fun fuel hfuel => Or.inr ⟨errorTail.tail, rfl, ?_⟩⟩
  obtain ⟨fuel, rfl⟩ := Nat.exists_eq_add_of_le' hfuel
  have htext : wsSkip errorTail.tail =
      34 :: (ascii "error" ++ 34 :: 58 :: 34 :: (ascii "runtime error" ++ [34, 125])) := by
    decide +kernel
  have hvalue : decodeValue (fuel + 1) (wsSkip (34 :: (ascii "runtime error" ++ [34, 125]))) =
      some (.string (ascii "runtime error"), [125]) := by
    rw [wsSkip_of_ne (by decide), decodeValue_string,
      (show Plain (ascii "runtime error") by decide +kernel).escaped.decodeString [125]]
    rfl
  rw [htext]
  exact (decodeObject_field (by decide +kernel)).mpr ⟨_, _, hvalue, Or.inl ⟨rfl, rfl⟩⟩

theorem joinComma_append {ts ts' : List Bytes} (h : ts ≠ []) (h' : ts' ≠ []) :
    joinComma (ts ++ ts') = joinComma ts ++ 44 :: joinComma ts' := by
  obtain ⟨t', s', rfl⟩ := List.exists_cons_of_ne_nil h'
  induction ts with
  | nil => exact absurd rfl h
  | cons t ts ih =>
    cases ts with
    | nil => rfl
    | cons u ts =>
      change t ++ 44 :: joinComma (u :: ts ++ t' :: s') =
        (t ++ 44 :: joinComma (u :: ts)) ++ 44 :: joinComma (t' :: s')
      rw [ih (List.cons_ne_nil _ _), List.append_assoc, List.cons_append]

theorem zero_not_mem_textItem {e : Entry} (hkey : (0 : UInt8) ∉ e.1) (hvalue : ValidJson e.2) :
    (0 : UInt8) ∉ textItem e := by
  rw [textItem_eq]
  simp [ascii, hkey, hvalue.2]

theorem zero_not_mem_items {es : List Entry} (hkeys : ∀ e ∈ es, (0 : UInt8) ∉ e.1)
    (hjson : ∀ e ∈ es, ValidJson e.2) : (0 : UInt8) ∉ joinComma (es.map textItem) := by
  refine zero_not_mem_joinComma fun t ht => ?_
  obtain ⟨e, he, rfl⟩ := List.mem_map.mp ht
  exact zero_not_mem_textItem (hkeys e he) (hjson e he)

/-- A listing of plain keys is read as it is written. -/
theorem load_listing {es : List Entry} {tail : Bytes} {o : List (Bytes × RValue)}
    (htail : ClosesResult tail o) (hzero : ∀ e ∈ es, (0 : UInt8) ∉ e.1)
    (hplain : ∀ e ∈ es, Plain e.1) (hjson : ∀ e ∈ es, ValidJson e.2) :
    load (openResult ++ (joinComma (es.map textItem) ++ 93 :: tail)) =
      some (.object ((ascii "result", .list (es.map parsedEntry)) :: o)) := by
  have hcstr : cstr (joinComma (es.map textItem) ++ 93 :: tail) =
      joinComma (es.map textItem) ++ 93 :: tail := by
    refine cstr_eq_self fun h => ?_
    rcases List.mem_append.mp h with h | h
    · exact zero_not_mem_items hzero hjson h
    · rcases List.mem_cons.mp h with h | h
      · cases h
      · exact htail.zero h
  rw [load_openResult, hcstr]
  have hlen : openResult.length = 11 := rfl
  generalize hfuel : 2 * (openResult.length +
    (joinComma (es.map textItem) ++ 93 :: tail).length) = fuel
  rw [hlen, List.length_append, List.length_cons] at hfuel
  obtain ⟨fuel, rfl⟩ := Nat.exists_eq_add_of_le' (show 1 ≤ fuel by omega)
  have hlist : decodeValue (fuel + 1) (91 :: (joinComma (es.map textItem) ++ 93 :: tail)) =
      some (.list (es.map parsedEntry), tail) := by
    cases es with
    | nil => exact decodeValue_nilList (wsSkip_of_ne (by decide) _)
    | cons e es =>
      have hskip := wsSkip_items e es (93 :: tail)
      have hne : ∀ u, wsSkip (joinComma ((e :: es).map textItem) ++ 93 :: tail) ≠ 93 :: u := by
        intro u hu
        rw [hskip] at hu
        cases es <;> cases hu
      rw [decodeValue_list hne, hskip, decodeList_items hplain hjson (by omega)]
      rfl
  rcases htail.closes (fuel + 1) (by omega) with ⟨hclose, rfl⟩ | ⟨t, hclose, ho⟩
  · exact ⟨_, tail, [], hlist, rfl, Or.inl ⟨hclose, rfl⟩⟩
  · exact ⟨_, tail, [], hlist, rfl, Or.inr ⟨t, o, hclose, ho, rfl⟩⟩

/-- If the text is read with one element for each of the first entries, and with their keys,
these are all entries and the keys are plain. -/
theorem of_load_listing {es taken : List Entry} {tail : Bytes} {o : List (Bytes × RValue)}
    {l : List RValue} (hinitial : taken <+: es) (hzero : ∀ e ∈ taken, (0 : UInt8) ∉ e.1)
    (hjson : ∀ e ∈ taken, ValidJson e.2)
    (h : load (openResult ++ (joinComma (es.map textItem) ++ 93 :: tail)) = some (.object o))
    (hl : o.lookup (ascii "result") = some (.list l))
    (hkeys : List.Forall₂ (fun x (a : Entry) => itemKey x = .ok a.1) l taken) :
    taken = es ∧ ∀ e ∈ es, Plain e.1 := by
  obtain ⟨x, r₁, r, hx, -, hfield⟩ := load_openResult.mp h
  have hlist : x = .list l := by
    rcases hfield with ⟨-, rfl⟩ | ⟨t, o', -, -, rfl⟩ <;>
    · rw [List.lookup_cons_self] at hl
      exact Option.some.inj hl
  subst hlist
  obtain ⟨more, rfl⟩ := hinitial
  obtain ⟨c, rest, hc, hbody, hmore⟩ : ∃ (c : UInt8) (rest : Bytes), (c = 44 ∨ c = 93) ∧
      (taken ≠ [] → joinComma ((taken ++ more).map textItem) ++ 93 :: tail =
        joinComma (taken.map textItem) ++ c :: rest) ∧ (c = 93 → more = []) := by
    cases more with
    | nil => exact ⟨93, tail, Or.inr rfl, fun _ => by rw [List.append_nil], fun _ => rfl⟩
    | cons b more =>
      refine ⟨44, joinComma ((b :: more).map textItem) ++ 93 :: tail, Or.inl rfl, fun hne => ?_,
        fun h => by cases h⟩
      rw [List.map_append, joinComma_append (by simpa using hne) (by simp), List.append_assoc]
      rfl
  cases taken with
  | nil =>
    cases hkeys
    cases more with
    | nil => exact ⟨rfl, fun e he => by cases he⟩
    | cons b more =>
      -- an empty list is closed at once, but the text goes on with an element
      obtain ⟨s, hs⟩ : ∃ s, cstr (joinComma (([] ++ b :: more).map textItem) ++ 93 :: tail) =
          123 :: s := by
        cases more <;> exact ⟨_, rfl⟩
      have hskip : wsSkip (123 :: s) = 123 :: s := wsSkip_of_ne (by decide) s
      rw [hs] at hx
      generalize 2 * (openResult.length + (123 :: s).length) = fuel at hx
      cases fuel with
      | zero => cases hx
      | succ fuel =>
        cases decodeValue_eq_some.mp hx with
        | nilList h =>
          rw [hskip] at h
          cases h
        | list hne h => exact absurd rfl (decodeList_ne_nil h)
  | cons a taken =>
    have hcstr : cstr (joinComma ((a :: taken).map textItem) ++ c :: rest) =
        joinComma ((a :: taken).map textItem) ++ c :: cstr rest := by
      have hitems := zero_not_mem_items hzero hjson
      rw [cstr, List.takeWhile_append_of_pos]
      · rw [List.takeWhile_cons_of_pos (by rcases hc with rfl | rfl <;> decide)]
        rfl
      · intro d hd
        simpa using fun hzero : d = 0 => hitems (hzero ▸ hd)
    rw [hbody (List.cons_ne_nil _ _), hcstr] at hx
    generalize hfuel : 2 * (openResult.length +
      (joinComma ((a :: taken).map textItem) ++ c :: cstr rest).length) = fuel at hx
    rw [show openResult.length = 11 from rfl, List.length_append, List.length_cons] at hfuel
    obtain ⟨fuel, rfl⟩ := Nat.exists_eq_add_of_le' (show 1 ≤ fuel by omega)
    cases decodeValue_eq_some.mp hx with
    | nilList h => cases hkeys
    | list hne h =>
      rw [wsSkip_items] at h
      obtain ⟨hclosed, hplain⟩ := of_decodeList_items hc hjson (by omega) h hkeys
      rw [hmore hclosed, List.append_nil]
      exact ⟨rfl, hplain⟩

end

/-! ## The two overloads -/

/-- An element of the vector. -/
def keyedEntry (e : Entry) : WValue := keyed e.1 (parsedValue e.2)

/-- An element of the text and one of the vector are the same pair of key and value. -/
def SamePair (x : RValue) (w : WValue) : Prop :=
  ∃ key v u, itemKey x = .ok key ∧ x.field (ascii "value") = .ok v ∧
    WValue.ofRValue v = .ok u ∧ w = keyed key u

/-- The text is a JSON object whose result has the pairs that the vector has. -/
def SameListing (text : Except Failure (Bool × Bytes))
    (vector : Except Failure (Bool × List WValue)) : Prop :=
  ∃ ok out o l ok' items, text = .ok (ok, out) ∧ load out = some (.object o) ∧
    o.lookup (ascii "result") = some (.list l) ∧ vector = .ok (ok', items) ∧
    List.Forall₂ SamePair l items

/-- The entries that a listing takes are defined, their keys need no escape, and their values
can be read. -/
def ListsPlainly (entries : Except Failure (List Entry)) : Prop :=
  ∃ es, entries = .ok es ∧ ∀ e ∈ es, Plain e.1 ∧ Readable e.2

section

variable {ok ok' : Bool} {es taken : List Entry} {tail : Bytes} {o : List (Bytes × RValue)}

theorem samePair_parsedEntry {e : Entry} (hjson : ValidJson e.2) (hplain : Plain e.1)
    (hread : Readable e.2) : SamePair (parsedEntry e) (keyed e.1 (parsedValue e.2)) := by
  have hload := load_of_validJson hjson
  have hvalue := (loadValue_of_isJson hjson.1).trans (if_pos hread)
  rw [loadValue, hload] at hvalue
  refine ⟨e.1, (load e.2).getD .null, parsedValue e.2, ?_, rfl, hvalue, rfl⟩
  change Except.ok (unescape e.1) = _
  rw [hplain.unescape_eq]

/-- A text and a vector that lists some of its first entries are the same listing exactly if
the vector lists all of them and their keys are plain. -/
theorem sameListing_iff (hinitial : taken <+: es) (htail : ClosesResult tail o)
    (hzero : ∀ e ∈ taken, (0 : UInt8) ∉ e.1) (hjson : ∀ e ∈ taken, ValidJson e.2)
    (hread : ∀ e ∈ taken, Readable e.2) :
    SameListing (.ok (ok, openResult ++ (joinComma (es.map textItem) ++ 93 :: tail)))
        (.ok (ok', taken.map fun e => keyed e.1 (parsedValue e.2))) ↔
      taken = es ∧ ∀ e ∈ es, Plain e.1 := by
  constructor
  · rintro ⟨_, out, o', l, _, items, htext, hload, hl, hvector, hpairs⟩
    cases htext
    cases hvector
    rw [List.forall₂_map_right_iff] at hpairs
    refine of_load_listing hinitial hzero hjson hload hl (hpairs.imp fun x e hpair => ?_)
    obtain ⟨key, v, u, hkey, -, -, hkeyed⟩ := hpair
    have htake := congrArg (fun w : WValue => w.take (ascii "key")) hkeyed
    simp only [take_key_keyed, WValue.string.injEq] at htake
    rw [hkey, htake]
  · rintro ⟨rfl, hplain⟩
    refine ⟨ok, _, _, taken.map parsedEntry, ok', _, rfl,
      load_listing htail hzero hplain hjson, List.lookup_cons_self, rfl, ?_⟩
    rw [List.forall₂_map_left_iff, List.forall₂_map_right_iff, List.forall₂_same]
    exact fun e he => samePair_parsedEntry (hjson e he) (hplain e he) (hread e he)

/-- A listing whose two overloads take the same entries. -/
theorem sameListing_entries_iff {entries : Except Failure (List Entry)}
    {vector : Except Failure (Bool × List WValue)}
    {g : Bool × List WValue → Bool × List WValue} (hg : ∀ x, (g x).2 = x.2)
    (hentries : ∀ es, entries = .ok es → ∀ e ∈ es, (0 : UInt8) ∉ e.1 ∧ ValidJson e.2)
    (hvector : vector = (entries.bind (collect keyedItems)).map g) :
    SameListing (entries.map fun es => (true, resultText es)) vector ↔ ListsPlainly entries := by
  subst hvector
  cases entries with
  | error f =>
    refine iff_of_false ?_ ?_
    · rintro ⟨ok, out, o, l, ok', items, htext, -⟩
      cases htext
    · rintro ⟨es, hes, -⟩
      cases hes
  | ok es =>
    have hes := hentries es rfl
    have hcollect := collect_keyedItems fun e he => (hes e he).2.1
    unfold elements at hcollect
    have hlists : ListsPlainly (.ok es) ↔ ∀ e ∈ es, Plain e.1 ∧ Readable e.2 := by
      constructor
      · rintro ⟨_, heq, h⟩
        cases heq
        exact h
      · exact fun h => ⟨es, rfl, h⟩
    rw [hlists]
    by_cases hread : ∀ e ∈ es, Readable e.2
    · rw [if_pos hread] at hcollect
      have hvector : ((Except.ok es).bind (collect keyedItems)).map g =
          .ok ((g (true, es.map fun e => keyed e.1 (parsedValue e.2))).1,
            es.map fun e => keyed e.1 (parsedValue e.2)) := by
        simp only [Except.bind, hcollect, Except.map, Except.ok.injEq]
        exact Prod.ext rfl (hg _)
      have hsame := @sameListing_iff true
        (g (true, es.map fun e => keyed e.1 (parsedValue e.2))).1 es es _ _ (List.prefix_refl es)
        closesResult_brace (fun e he => (hes e he).1) (fun e he => (hes e he).2) hread
      rw [hvector]
      change SameListing (.ok (true, resultText es)) _ ↔ _
      rw [resultText_eq, hsame]
      exact ⟨fun h e he => ⟨h.2 e he, hread e he⟩, fun h => ⟨rfl, fun e he => (h e he).1⟩⟩
    · rw [if_neg hread] at hcollect
      refine iff_of_false ?_ fun h => hread fun e he => (h e he).2
      rintro ⟨ok, out, o, l, ok', items, -, -, -, hvector, -⟩
      simp only [Except.bind, hcollect, Except.map] at hvector
      cases hvector

end

/-! ## Listings by pattern -/

section

variable {faults : Faults} {c : Config} {n : Node} {wild : Bytes} {win : Window}

/-- A scan takes entries that it meets. -/
theorem scanFrom_subset {accept : Entry → Bool} (i : ℤ) (es : List Entry) :
    scanFrom accept win i es ⊆ es := by
  induction es generalizing i with
  | nil => exact fun _ h => h
  | cons e es ih =>
    have hrest : ∀ j, (if win.stops j then [] else scanFrom accept win j es) ⊆ es := by
      intro j
      split
      · exact List.nil_subset es
      · exact ih j
    simp only [scanFrom]
    split
    · split
      · exact List.cons_subset_cons e (hrest _)
      · exact List.subset_cons_of_subset e (hrest _)
    · exact List.subset_cons_of_subset e (ih i)

theorem map_fst_markAt (mark start : ℕ) (es : List Entry) :
    (markAt mark start es).map Prod.fst = es := by
  rw [markAt, List.map_map]
  exact List.zipIdx_map_fst start es

/-- The loop over the cache takes entries of the cache. -/
theorem cachedTaken_subset {reversed : Bool} {cache : Store} {es : List Entry}
    (h : cachedTaken reversed cache wild win = .ok es) : es ⊆ cache.entries := by
  unfold cachedTaken at h
  simp only at h
  split at h
  · cases h
  next after hafter =>
  split at h
  · cases h
  generalize hmet : (if reversed = true then _ else _ : List (Entry × Bool)) = met at h
  have hsub : met.map Prod.fst ⊆ cache.entries := by
    rw [← hmet]
    split
    · rw [List.map_reverse, map_fst_markAt]
      exact fun e he => (OrderedMap.mem_below.mp (List.mem_reverse.mp he)).1
    · rw [map_fst_markAt]
      exact fun e he => (OrderedMap.mem_above.mp he).1
  split at h
  · cases h
    exact List.nil_subset _
  split at h
  · have hinitial := cachedLoop_isPrefix (by cases reversed <;> simp) (-1) h
    exact List.Subset.trans (List.Subset.trans hinitial.subset (scanFrom_subset _ _)) hsub
  · cases h
    exact List.nil_subset _

/-- The entries of a window are entries of the store that is listed. -/
theorem windowEntries_subset {reversed : Bool} {es : List Entry}
    (h : windowEntries reversed c n wild win = .ok es) : es ⊆ (source c n).entries := by
  unfold windowEntries at h
  unfold source
  split at h
  · next hcache =>
    rw [if_pos hcache]
    exact cachedTaken_subset h
  next hcache =>
  rw [if_neg hcache]
  split at h
  · unfold listedReversed at h
    split at h
    · cases h
    · next after hafter =>
      cases h
      refine List.Subset.trans (scanFrom_subset _ _)
        (List.Subset.trans (List.takeWhile_prefix _).subset ?_)
      rw [Cursor.backward_prev, OrderedMap.seek]
      refine List.Subset.trans (List.tail_sublist _).subset fun e he => ?_
      rw [← OrderedMap.below_append_above n.db after]
      cases habove : n.db.above after with
      | nil =>
        rw [habove] at he
        cases he
      | cons a es =>
        rw [habove] at he
        rcases List.mem_cons.mp he with rfl | he
        · exact List.mem_append_right _ List.mem_cons_self
        · exact List.mem_append_left _ (List.mem_reverse.mp he)
  · cases h
    refine List.Subset.trans (scanFrom_subset _ _)
      (List.Subset.trans (List.takeWhile_prefix _).subset ?_)
    rw [OrderedMap.forward_seek]
    exact fun e he => (OrderedMap.mem_above.mp he).1

/-- The string overloads give the text of the entries of the window. -/
theorem getKeysText_windowEntries {out : Bytes} (hopen : c.cacheEnabled = false → c.dbOk = true)
    (hstar : startsWithStar wild = false) :
    Yields faults n (getKeysText c wild out win)
        ((windowEntries false c n wild win).map fun es => (true, resultText es)) ∧
      Yields faults n (getKeysReversedText c wild out win)
        ((windowEntries true c n wild win).map fun es => (true, resultText es)) := by
  have hmap : ∀ {r : Except Failure (List Entry)}, (r.map resultText).bind (fun text =>
      .ok (true, text)) = r.map fun es => (true, resultText es) := by
    rintro (f | x) <;> rfl
  cases hcache : c.cacheEnabled with
  | false =>
    have hforward := @getKeysText_yields faults n c wild win hcache (hopen hcache) hstar out
    have hbackward :=
      @getKeysReversedText_yields faults n c wild win hcache (hopen hcache) hstar out
    rw [hmap] at hbackward
    unfold windowEntries
    rw [hcache]
    exact ⟨hforward, hbackward⟩
  | true =>
    have hcached : ∀ reversed : Bool,
        ((getCachedKeysText false reversed n.cache wild out win).bind fun r => .ok (true, r.2)) =
          (windowEntries reversed c n wild win).map fun es => (true, resultText es) := by
      intro reversed
      unfold windowEntries
      rw [if_pos hcache, getCachedKeysText, if_neg (by simp [hstar])]
      cases cachedTaken reversed n.cache wild win <;> rfl
    have hbackward := @getKeysReversedText_cached_yields faults n c wild win hcache out
    rw [hcached] at hbackward
    exact ⟨hcached false ▸ getKeysText_cached_yields hcache, hbackward⟩

end

end Quarks
