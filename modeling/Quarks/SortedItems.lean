import Quarks.SortedEntries
import Mathlib.Algebra.Order.BigOperators.Group.List

/-!
# What a sorted listing changes

`getSorted` puts quotes around a value that starts with neither a brace nor a quote, pastes the
key between quotes and parses the result. It gives the items of the vector `getKeys`, in some
order, only if it never does harm: no number, list, boolean or null is listed, no value starts
with white space, and no key needs an escape. What is harmed cannot make up for one another,
since the quotes only add strings, take away their characters, and shorten keys.
-/

namespace Quarks

open Basis

/-! ## Sums -/

/-- If no term is greater than that of another sum, and the sums are equal, so are the terms. -/
theorem eq_of_sum_eq {α : Type} {f g : α → ℕ} {l : List α} (hle : ∀ a ∈ l, f a ≤ g a)
    (hsum : (l.map f).sum = (l.map g).sum) : ∀ a ∈ l, f a = g a := by
  intro a ha
  by_contra hne
  have hlt := List.sum_lt_sum f g hle ⟨a, ha, lt_of_le_of_ne (hle a ha) hne⟩
  omega

/-! ## What an item shows -/

/-- White space between the parts of a JSON text. -/
def isSkipped (c : UInt8) : Bool := c = 32 ∨ c = 9 ∨ c = 13 ∨ c = 10

/-- Whether the value of an item is a string: one or nothing. -/
def stringCount (w : WValue) : ℕ :=
  match w.field? (ascii "value") with
  | some (.string _) => 1
  | _ => 0

/-- The characters of a string value that are no white space. -/
def visibleCount (w : WValue) : ℕ :=
  match w.field? (ascii "value") with
  | some (.string s) => s.countP fun c => !isSkipped c
  | _ => 0

/-- The length of the key of an item. -/
def keyLength (w : WValue) : ℕ :=
  match w.field? (ascii "key") with
  | some (.string s) => s.length
  | _ => 0

/-- The item that `getSorted` makes of an object. -/
def shownItem (x : RValue) : WValue := ((sortedItem x).toOption.join).getD .null

/-- The item that `getSorted` makes of an entry. -/
def itemOf (e : Entry) : WValue := ((load (keyVal e)).map shownItem).getD .null

section

variable {x : RValue}

/-- A value that is converted to a string is one. -/
theorem of_ofRValue_string {s : Bytes} (h : WValue.ofRValue x = .ok (.string s)) :
    ∃ raw, x = .string raw ∧ unescape raw = s := by
  cases x with
  | string raw =>
    cases h
    exact ⟨raw, rfl, rfl⟩
  | _ =>
    simp only [WValue.ofRValue] at h
    first | cases h | (split at h <;> cases h) | (obtain ⟨_, -, h⟩ := of_map_ok h; cases h)

/-- The tree of a document. -/
theorem ofRValue_of_readable {value : Bytes} (hjson : IsJson value) (hread : Readable value) :
    ∃ v, load value = some v ∧ WValue.ofRValue v = .ok (parsedValue value) := by
  obtain ⟨v, hv⟩ := Option.isSome_iff_exists.mp hjson
  have hload := loadValue_of_readable hread
  rw [loadValue, hv] at hload
  exact ⟨v, hv, hload⟩

end

/-! ## How the text of an entry is read -/

theorem wsSkip_split (s : Bytes) : s = s.takeWhile isSkipped ++ wsSkip s :=
  List.takeWhile_append_dropWhile.symm

theorem isSkipped_of_mem {s : Bytes} {c : UInt8} (hc : c ∈ s.takeWhile isSkipped) :
    isSkipped c = true := List.mem_takeWhile_imp hc

/-- White space has neither quotes nor backslashes. -/
theorem plain_takeWhile (s : Bytes) : Plain (s.takeWhile isSkipped) := by
  intro c hc
  have hskipped := isSkipped_of_mem hc
  constructor <;>
  · rintro rfl
    cases hskipped

/-- Up to a first zero byte a text is read as it starts. -/
theorem exists_cstr_append (s t : Bytes) : ∃ t', cstr (s ++ t) = cstr s ++ t' := by
  unfold cstr
  rw [List.takeWhile_append]
  split
  · next h =>
    have hall : s.takeWhile (· ≠ 0) = s := List.takeWhile_prefix _ |>.eq_of_length h
    exact ⟨_, by rw [hall]⟩
  · exact ⟨[], (List.append_nil _).symm⟩

/-- What a string starts with, behind white space, stands for itself. -/
theorem mem_unescape_of_wsSkip {raw t : Bytes} {c : UInt8} (hc : c ≠ 92)
    (h : wsSkip raw = c :: t) : c ∈ unescape raw := by
  have hplain : ∀ p s : Bytes, Plain p → unescape (p ++ s) = p ++ unescape s := by
    intro p s hp
    induction p with
    | nil => rfl
    | cons a p ih =>
      obtain ⟨ha, hp⟩ := List.forall_mem_cons.mp hp
      rw [List.cons_append, List.cons_append, ← ih hp]
      simp [unescape, ha.2]
  rw [wsSkip_split raw, hplain _ _ (plain_takeWhile raw), h]
  refine List.mem_append_right _ ?_
  simp [unescape, hc]

section

variable {e : Entry} {x : RValue} {raw : Bytes}

/-- A document that is a string. -/
theorem of_load_string (h : load e.2 = some (.string raw)) : ∃ t r,
    wsSkip (cstr e.2) = 34 :: t ∧ decodeString t = some (raw, r) := by
  rw [load, parse, Option.bind_eq_some_iff] at h
  obtain ⟨⟨y, r⟩, hy, h⟩ := h
  split at h
  · cases h
    generalize wsSkip (cstr e.2) = s at hy
    cases decodeValue_eq_some.mp hy with
    | string ht => exact ⟨_, r, rfl, ht⟩
  · cases h

/-- If the value is a string that starts with white space, this white space is what the object
holds, while the string starts with something else. -/
theorem of_load_keyVal_quoted (hstart : ¬(e.2.head? = some 123 ∨ e.2.head? = some 34))
    (hstring : load e.2 = some (.string raw)) (h : load (keyVal e) = some x) :
    ∃ shown o, x = .object ((ascii "value", .string shown) :: o) ∧ Plain shown ∧
      (∀ c ∈ shown, isSkipped c = true) ∧ ∃ c ∈ unescape raw, isSkipped c = false := by
  obtain ⟨t, r, hskip, hraw⟩ := of_load_string hstring
  obtain ⟨hescaped, rfl⟩ := of_decodeString hraw
  have hquoted : quotedValue e.2 = 34 :: (e.2 ++ [34]) := by
    cases hvalue : e.2 with
    | nil =>
      rw [hvalue] at hskip
      cases hskip
    | cons c s =>
      rw [hvalue] at hstart
      exact if_neg (by simpa using hstart)
  obtain ⟨z, hz⟩ := exists_cstr_append e.2 (34 :: keyTail e.1)
  have hcstr : cstr (quotedValue e.2 ++ keyTail e.1) =
      34 :: ((cstr e.2).takeWhile isSkipped ++ 34 :: (raw ++ 34 :: (r ++ z))) := by
    rw [hquoted]
    have hbody : 34 :: (e.2 ++ [34]) ++ keyTail e.1 = 34 :: (e.2 ++ 34 :: keyTail e.1) := by simp
    have hcons : cstr (34 :: (e.2 ++ 34 :: keyTail e.1)) =
        34 :: cstr (e.2 ++ 34 :: keyTail e.1) := List.takeWhile_cons_of_pos (by decide)
    have hsplit := wsSkip_split (cstr e.2)
    rw [hskip] at hsplit
    have hspace : cstr e.2 ++ z =
        (cstr e.2).takeWhile isSkipped ++ 34 :: (raw ++ 34 :: (r ++ z)) := calc
      cstr e.2 ++ z = ((cstr e.2).takeWhile isSkipped ++ 34 :: (raw ++ 34 :: r)) ++ z := by
        rw [← hsplit]
      _ = _ := by simp
    rw [hbody, hcons, hz, hspace]
  rw [keyVal_eq] at h
  obtain ⟨o, rfl⟩ := load_brace h
  obtain ⟨y, r₁, r', hy, -, hfields⟩ :=
    (load_firstField (by decide +kernel) (by decide +kernel)).mp h
  rw [hcstr, wsSkip_of_ne (by decide)] at hy
  have hfuel : 1 ≤ 2 * ((ascii "value").length + 4 + (34 :: ((cstr e.2).takeWhile isSkipped ++
    34 :: (raw ++ 34 :: (r ++ z)))).length) := by omega
  obtain ⟨fuel, hfuel⟩ := Nat.exists_eq_add_of_le' hfuel
  rw [hfuel, decodeValue_string, (plain_takeWhile _).escaped.decodeString] at hy
  cases hy
  have hnext : ∃ c u, wsSkip (raw ++ 34 :: (r ++ z)) = c :: u ∧ (c = 125 ∨ c = 44) := by
    rcases hfields with ⟨hnext, -⟩ | ⟨u, o', hnext, -, -⟩
    · exact ⟨_, _, hnext, Or.inl rfl⟩
    · exact ⟨_, _, hnext, Or.inr rfl⟩
  obtain ⟨c, u, hnext, hc⟩ := hnext
  have hvisible : isSkipped c = false := by rcases hc with rfl | rfl <;> decide
  have hinside : ∃ u', wsSkip raw = c :: u' := by
    have happend : wsSkip (raw ++ 34 :: (r ++ z)) =
        if (wsSkip raw).isEmpty then wsSkip (34 :: (r ++ z)) else wsSkip raw ++ 34 :: (r ++ z) :=
      List.dropWhile_append
    rw [happend] at hnext
    split at hnext
    · rw [wsSkip_of_ne (by decide)] at hnext
      cases hnext
      rcases hc with hc | hc <;> cases hc
    · next hne =>
      have hraw : wsSkip raw ≠ [] := fun hnil => hne (by rw [hnil]; rfl)
      obtain ⟨c', u', hraw'⟩ := List.exists_cons_of_ne_nil hraw
      rw [hraw', List.cons_append] at hnext
      cases hnext
      exact ⟨u', hraw'⟩
  obtain ⟨u', hinside⟩ := hinside
  have hmem : c ∈ unescape raw :=
    mem_unescape_of_wsSkip (by rcases hc with rfl | rfl <;> decide) hinside
  rcases hfields with ⟨-, rfl⟩ | ⟨t', o', -, -, rfl⟩
  · exact ⟨_, _, rfl, plain_takeWhile _, fun _ => isSkipped_of_mem, c, hmem, hvisible⟩
  · exact ⟨_, _, rfl, plain_takeWhile _, fun _ => isSkipped_of_mem, c, hmem, hvisible⟩

/-- A key between quotes is read as a text that is not longer, and as itself if that is not
shorter. -/
theorem length_unescape_key {key r : Bytes}
    (h : decodeString (cstr key ++ [34, 125]) = some (raw, r)) :
    (unescape raw).length ≤ key.length ∧
      ((unescape raw).length = key.length → Plain key ∧ (0 : UInt8) ∉ key) := by
  obtain ⟨hescaped, hsplit⟩ := of_decodeString h
  obtain ⟨hle, hplain⟩ := hescaped.length_unescape
  have hcstr : cstr key <+: key := List.takeWhile_prefix _
  have hkey := hcstr.length_le
  obtain ⟨t, ht⟩ : ∃ t, cstr key = raw ++ t := by
    rcases List.append_eq_append_iff.mp hsplit with ⟨t, hraw, ht⟩ | ⟨t, hkey, -⟩
    · match t with
      | [] => exact ⟨[], by rw [hraw]; simp⟩
      | [_] => cases ht
      | _ :: _ :: t => cases t <;> cases ht
    · exact ⟨t, hkey⟩
  have hlength := congrArg List.length ht
  rw [List.length_append] at hlength
  refine ⟨by omega, fun heq => ?_⟩
  have hwhole : cstr key = key := hcstr.eq_of_length (by omega)
  have hnil : t = [] := List.length_eq_zero_iff.mp (by omega)
  rw [hnil, List.append_nil, hwhole] at ht
  rw [ht]
  exact ⟨hplain (by omega), by rw [← ht, ← hwhole]; exact zero_not_mem_cstr key⟩

/-- If the value starts with a brace or a quote, the object holds it, and the key as far as it
needs no escape. -/
theorem of_load_keyVal_start {v : RValue} (hstart : e.2.head? = some 123 ∨ e.2.head? = some 34)
    (hv : load e.2 = some v) (h : load (keyVal e) = some x) : (0 : UInt8) ∉ e.2 ∧
      ∃ raw o, x = .object ((ascii "value", v) :: (ascii "key", .string raw) :: o) ∧
        (unescape raw).length ≤ e.1.length ∧
        ((unescape raw).length = e.1.length → Plain e.1 ∧ (0 : UInt8) ∉ e.1) := by
  rw [keyVal_eq, quotedValue_of_start hstart] at h
  obtain ⟨o, rfl⟩ := load_brace h
  obtain ⟨y, r₁, r, hy, -, hfields⟩ :=
    (load_firstField (by decide +kernel) (by decide +kernel)).mp h
  have hzero : (0 : UInt8) ∉ e.2 := by
    intro hmem
    -- behind a zero byte no separator is read
    have hcut : cstr (e.2 ++ keyTail e.1) = cstr e.2 := by
      unfold cstr
      rw [List.takeWhile_append, if_neg]
      intro hlength
      have hwhole : cstr e.2 = e.2 := List.takeWhile_prefix _ |>.eq_of_length hlength
      exact zero_not_mem_cstr e.2 (hwhole.symm ▸ hmem)
    rw [load, parse, Option.bind_eq_some_iff] at hv
    obtain ⟨⟨y', r₂⟩, hy', hv⟩ := hv
    have hend : wsSkip r₂ = [] := by
      split at hv
      · assumption
      · cases hv
    have hlater := (decode_append (show EndsValue [] from fun c hc => by cases hc) _).1
      (2 * ((ascii "value").length + 4 + (cstr e.2).length)) _ _ _ (by omega) hy'
    rw [List.append_nil, List.append_nil] at hlater
    rw [hcut, hlater] at hy
    cases hy
    rw [hend] at hfields
    rcases hfields with ⟨hnext, -⟩ | ⟨t, o', hnext, -, -⟩ <;> cases hnext
  have hcstr : cstr (e.2 ++ keyTail e.1) = e.2 ++ keyTail e.1 :=
    cstr_eq_self fun hmem => (List.mem_append.mp hmem).elim hzero (zero_not_mem_keyTail e.1)
  rw [hcstr] at hy hfields
  have htail : EndsValue (keyTail e.1) := endsValue_cons (Or.inl rfl) _
  obtain ⟨r₂, hr₂, hskip⟩ := decodeValue_spliced htail hv hzero
    (show 2 * e.2.length + 2 ≤ 2 * ((ascii "value").length + 4 + (e.2 ++ keyTail e.1).length) by
      rw [List.length_append]
      omega)
  rw [hr₂] at hy
  cases hy
  rw [hskip] at hfields
  obtain ⟨fuel, hfuel⟩ := Nat.exists_eq_add_of_le' (show 2 ≤ 2 * ((ascii "value").length + 4 +
    (e.2 ++ keyTail e.1).length) by omega)
  rcases hfields with ⟨hnext, -⟩ | ⟨t, o', hnext, ho', rfl⟩
  · cases hnext
  · cases hnext
    rw [hfuel, wsSkip_of_ne (by decide)] at ho'
    obtain ⟨y', r₃, hy', hrest⟩ := (decodeObject_field plain_key).mp ho'
    rw [wsSkip_of_ne (by decide), decodeValue_string, Option.map_eq_some_iff] at hy'
    obtain ⟨⟨raw, u⟩, hraw, heq⟩ := hy'
    cases heq
    refine ⟨hzero, raw, ?_⟩
    rcases hrest with ⟨-, rfl⟩ | ⟨t', o'', -, -, rfl⟩
    · exact ⟨[], rfl, length_unescape_key hraw⟩
    · exact ⟨o'', rfl, length_unescape_key hraw⟩

end

/-! ## What the quotes do to the items -/

/-- An object is made of the entry, and an item of the object. -/
structure ShownAs (e : Entry) (x : RValue) : Prop where
  loads : load (keyVal e) = some x
  item : sortedItem x = .ok (some (itemOf e))

section

variable {e : Entry} {x y : RValue} {raw : Bytes} {o : List (Bytes × RValue)}

/-- The value of the item is the first field of the object. -/
theorem ShownAs.field?_value (h : ShownAs e (.object ((ascii "value", y) :: o))) :
    ∃ v, WValue.ofRValue y = .ok v ∧ (itemOf e).field? (ascii "value") = some v := by
  obtain ⟨xv, xk, v, k, hxv, -, hv, -, hvalue, -⟩ := of_sortedItem h.item
  rw [RValue.field, List.lookup_cons_self] at hxv
  cases hxv
  exact ⟨v, hv, hvalue⟩

/-- The key of the item is the second field of the object. -/
theorem ShownAs.field?_key
    (h : ShownAs e (.object ((ascii "value", y) :: (ascii "key", .string raw) :: o))) :
    (itemOf e).field? (ascii "key") = some (.string (unescape raw)) := by
  obtain ⟨xv, xk, v, k, -, hxk, -, hk, -, hkey⟩ := of_sortedItem h.item
  have hfield : (RValue.object ((ascii "value", y) :: (ascii "key", .string raw) :: o)).field
      (ascii "key") = .ok (.string raw) := rfl
  rw [hfield] at hxk
  cases hxk
  cases hk
  exact hkey

variable (hjson : IsJson e.2) (hread : Readable e.2) (h : ShownAs e x)
include hjson hread h

/-- Quotes make strings of values, and of no string anything else. -/
theorem stringCount_le : stringCount (keyedEntry e) ≤ stringCount (itemOf e) ∧
    (stringCount (keyedEntry e) = stringCount (itemOf e) → e.2.head? ≠ some 123 →
      ∃ raw, load e.2 = some (.string raw)) := by
  obtain ⟨v, hv, hparsed⟩ := ofRValue_of_readable hjson hread
  obtain ⟨hvalue, -⟩ := field?_keyedEntry e
  by_cases hbrace : e.2.head? = some 123
  · refine ⟨?_, fun _ hno => absurd hbrace hno⟩
    obtain ⟨s, hs⟩ : ∃ s, e.2 = 123 :: s := by
      cases he : e.2 with
      | nil =>
        rw [he] at hbrace
        cases hbrace
      | cons c s =>
        rw [he] at hbrace
        cases hbrace
        exact ⟨s, rfl⟩
    rw [hs] at hv
    obtain ⟨o, rfl⟩ := load_brace hv
    obtain ⟨fs, -, hobject⟩ := WValue.ofRValue_object hparsed
    rw [stringCount, hvalue, hobject]
    exact Nat.zero_le _
  · have hne : e.2 ≠ [] := by
      rintro hnil
      rw [hnil] at hv
      cases hv
    obtain ⟨raw, o, rfl⟩ := load_keyVal_quoted hbrace hne h.loads
    obtain ⟨u, hu, hitem⟩ := h.field?_value
    cases hu
    rw [stringCount, stringCount, hvalue, hitem]
    cases hw : parsedValue e.2 with
    | string s =>
      rw [hw] at hparsed
      obtain ⟨raw', rfl, -⟩ := of_ofRValue_string hparsed
      exact ⟨le_rfl, fun _ _ => ⟨raw', hv⟩⟩
    | _ => exact ⟨Nat.zero_le _, fun hzero => by cases hzero⟩

/-- Quotes leave white space of a string that is not in quotes at once. -/
theorem visibleCount_le
    (hstring : e.2.head? ≠ some 123 → ∃ raw, load e.2 = some (.string raw)) :
    visibleCount (itemOf e) ≤ visibleCount (keyedEntry e) ∧
      (visibleCount (itemOf e) = visibleCount (keyedEntry e) →
        e.2.head? = some 123 ∨ e.2.head? = some 34) := by
  obtain ⟨v, hv, hparsed⟩ := ofRValue_of_readable hjson hread
  obtain ⟨hvalue, -⟩ := field?_keyedEntry e
  by_cases hstart : e.2.head? = some 123 ∨ e.2.head? = some 34
  · obtain ⟨-, raw, o, rfl, -, -⟩ := of_load_keyVal_start hstart hv h.loads
    obtain ⟨u, hu, hitem⟩ := h.field?_value
    rw [hparsed] at hu
    cases hu
    rw [visibleCount, visibleCount, hvalue, hitem]
    exact ⟨le_rfl, fun _ => hstart⟩
  · obtain ⟨raw, hraw⟩ := hstring fun hbrace => hstart (Or.inl hbrace)
    obtain ⟨shown, o, rfl, hplain, hspace, c, hc, hvisible⟩ :=
      of_load_keyVal_quoted hstart hraw h.loads
    obtain ⟨u, hu, hitem⟩ := h.field?_value
    cases hu
    rw [hv] at hraw
    cases hraw
    rw [WValue.ofRValue, Except.ok.injEq] at hparsed
    have hnone : visibleCount (itemOf e) = 0 := by
      rw [visibleCount, hitem, hplain.unescape_eq]
      simpa [List.countP_eq_zero] using hspace
    have hsome : 0 < visibleCount (keyedEntry e) := by
      rw [visibleCount, hvalue, ← hparsed]
      exact List.countP_pos_iff.mpr ⟨c, hc, by rw [hvisible]; rfl⟩
    exact ⟨by omega, fun heq => by omega⟩

/-- Escapes make keys shorter, and a zero byte leaves no object. -/
theorem keyLength_le (hstart : e.2.head? = some 123 ∨ e.2.head? = some 34) :
    keyLength (itemOf e) ≤ keyLength (keyedEntry e) ∧
      (keyLength (itemOf e) = keyLength (keyedEntry e) → Rewrapped e) := by
  obtain ⟨v, hv, -⟩ := ofRValue_of_readable hjson hread
  obtain ⟨-, hkey⟩ := field?_keyedEntry e
  obtain ⟨hzero, raw, o, rfl, hle, hplain⟩ := of_load_keyVal_start hstart hv h.loads
  rw [keyLength, keyLength, h.field?_key, hkey]
  refine ⟨hle, fun heq => ?_⟩
  obtain ⟨hplain, hkey⟩ := hplain heq
  exact ⟨hjson, hstart, hzero, hplain, hkey⟩

end

/-- Items that are those of the entries in some order leave each entry as it is. -/
theorem rewrapped_of_perm {es : List Entry} (hjson : ∀ e ∈ es, IsJson e.2)
    (hread : ∀ e ∈ es, Readable e.2) (hshown : ∀ e ∈ es, ∃ x, ShownAs e x)
    (hperm : (es.map itemOf).Perm (es.map keyedEntry)) : ∀ e ∈ es, Rewrapped e := by
  have hsum : ∀ size : WValue → ℕ, (es.map fun e => size (itemOf e)).sum =
      (es.map fun e => size (keyedEntry e)).sum := by
    intro size
    have hsizes := (hperm.map size).sum_eq
    rwa [List.map_map, List.map_map] at hsizes
  have hstring : ∀ e ∈ es, e.2.head? ≠ some 123 → ∃ raw, load e.2 = some (.string raw) := by
    intro e he
    obtain ⟨x, hx⟩ := hshown e he
    refine (stringCount_le (hjson e he) (hread e he) hx).2 ?_
    refine eq_of_sum_eq (fun a ha => ?_) (hsum stringCount).symm e he
    obtain ⟨y, hy⟩ := hshown a ha
    exact (stringCount_le (hjson a ha) (hread a ha) hy).1
  have hstart : ∀ e ∈ es, e.2.head? = some 123 ∨ e.2.head? = some 34 := by
    intro e he
    obtain ⟨x, hx⟩ := hshown e he
    refine (visibleCount_le (hjson e he) (hread e he) hx (hstring e he)).2 ?_
    refine eq_of_sum_eq (fun a ha => ?_) (hsum visibleCount) e he
    obtain ⟨y, hy⟩ := hshown a ha
    exact (visibleCount_le (hjson a ha) (hread a ha) hy (hstring a ha)).1
  intro e he
  obtain ⟨x, hx⟩ := hshown e he
  refine (keyLength_le (hjson e he) (hread e he) hx (hstart e he)).2 ?_
  refine eq_of_sum_eq (fun a ha => ?_) (hsum keyLength) e he
  obtain ⟨y, hy⟩ := hshown a ha
  exact (keyLength_le (hjson a ha) (hread a ha) hy (hstart a ha)).1

/-! ## The two listings -/

section

variable [UnstableSort] {sortby : Bytes} {ascending : Bool} {es : List Entry}

omit [UnstableSort] in
/-- As many items as objects are those of all objects. -/
theorem sortedItems_eq_map {xs : List RValue} {items : List WValue}
    (h : sortedItems xs = .ok items) (hlen : items.length = xs.length) :
    items = xs.map shownItem ∧ ∀ x ∈ xs, sortedItem x = .ok (some (shownItem x)) := by
  induction xs generalizing items with
  | nil =>
    cases h
    exact ⟨rfl, fun x hx => by cases hx⟩
  | cons x xs ih =>
    obtain ⟨item, hitem, h⟩ := of_bind_ok h
    obtain ⟨rest, hrest, h⟩ := of_bind_ok h
    cases h
    have hle := (sortedItems_length hrest).1
    cases item with
    | none =>
      simp only [Option.toList, List.nil_append, List.length_cons] at hlen
      omega
    | some w =>
      simp only [Option.toList, List.singleton_append, List.length_cons, Nat.add_right_cancel_iff]
        at hlen
      obtain ⟨rfl, hall⟩ := ih hrest hlen
      have hw : shownItem x = w := by
        rw [shownItem, hitem]
        rfl
      refine ⟨by rw [List.map_cons, hw]; rfl, List.forall_mem_cons.mpr ⟨?_, hall⟩⟩
      rw [hw, hitem]

/-- What it takes to list the entries as they are: the text made of each holds its value and
its key, crow can convert it, and the sort, if there is one, is defined. -/
structure KeepsItems (sortby : Bytes) (es : List Entry) : Prop where
  rewrapped : ∀ e ∈ es, Rewrapped e
  reads : ∀ e ∈ es, Readable e.2
  sortable : sortby ≠ [] → Sortable (jsonComparer sortby) (es.map sortedPair)

/-- A sorted listing has the items of the entries exactly if it leaves each as it is. -/
theorem sortedListing_perm_iff (hjson : ∀ e ∈ es, IsJson e.2) (hread : ∀ e ∈ es, Readable e.2)
    (hcount : es.length ≤ 2 ^ 31) :
    (∃ items, sortedListing sortby ascending ⟨0, -1⟩ [] es = .ok (true, items) ∧
      items.Perm (es.map keyedEntry)) ↔ KeepsItems sortby es := by
  have hvalid : (Window.mk 0 (-1)).Valid := ⟨by decide, by decide, by decide, by decide⟩
  have hwhole : ∀ {α : Type} {l : List α}, l.length ≤ 2 ^ 31 →
      scan (fun _ => true) ⟨0, -1⟩ l = l := by
    intro α l hl
    have h := scan_all_eq_slice hvalid (show (Window.mk 0 (-1)).Fits l.length by
      simpa [Window.Fits] using hl)
    rwa [whole_slice] at h
  constructor
  · rintro ⟨items, hlist, hperm⟩
    rw [sortedListing_nil] at hlist
    split at hlist
    case isFalse => cases hlist
    obtain ⟨order, horder, hlist⟩ := of_bind_ok hlist
    obtain ⟨items', hitems, heq⟩ := of_map_ok hlist
    cases heq
    have hmade : (madeOf es).length ≤ es.length := List.length_filterMap_le _ _
    have horderlen := (arranged_perm horder).length_eq
    have hlength := hperm.length_eq
    rw [List.length_map] at hlength
    rw [hwhole (by omega)] at hitems
    have hle := (sortedItems_length hitems).1
    obtain ⟨rfl, hall⟩ := sortedItems_eq_map hitems (by omega)
    have hload := of_length_madeOf (show (madeOf es).length = es.length by omega)
    have hitem : ∀ e ∈ es, ∃ x, ShownAs e x := by
      intro e he
      obtain ⟨x, hx, hloads⟩ := hload e he
      refine ⟨x, hloads, ?_⟩
      rw [itemOf, hloads]
      exact hall x ((arranged_perm horder).mem_iff.mpr hx)
    have hitems : (madeOf es).map shownItem = es.map itemOf := by
      rw [madeOf, List.map_filterMap, ← List.filterMap_eq_map]
      refine List.filterMap_congr fun e he => ?_
      obtain ⟨x, -, hloads⟩ := hload e he
      simp [itemOf, hloads]
    have hboth : (es.map itemOf).Perm (es.map keyedEntry) := by
      rw [← hitems]
      exact ((arranged_perm horder).map shownItem).symm.trans hperm
    have hrewrapped := rewrapped_of_perm hjson hread hitem hboth
    refine ⟨hrewrapped, hread, fun hsort => ?_⟩
    obtain ⟨hmadeOf, hsome⟩ := madeOf_of_rewrapped hrewrapped
    rw [hsome, hmadeOf, Bool.and_true, decide_eq_true hsort] at horder
    obtain ⟨ys, hys, -⟩ := of_map_ok horder
    rw [if_pos rfl, stdSort_eq_ok] at hys
    exact hys.1
  · rintro ⟨hrewrapped, -, hsortable⟩
    have harranged : ∃ xs, arranged sortby ascending (decide (sortby ≠ []))
        (es.map sortedPair) = .ok xs := by
      unfold arranged
      by_cases hsort : sortby = []
      · rw [hsort]
        exact ⟨_, rfl⟩
      · rw [decide_eq_true hsort, if_pos rfl, stdSort_eq_ok.mpr ⟨hsortable hsort, rfl⟩]
        exact ⟨_, rfl⟩
    obtain ⟨xs, hxs⟩ := harranged
    obtain ⟨order, hperm, rfl, hlist⟩ := sortedListing_of_arranged hrewrapped hread hxs
    refine ⟨order.map keyedEntry, ?_, hperm.map keyedEntry⟩
    rw [hlist, hwhole (by rw [hperm.length_eq]; exact hcount)]

end

/-- `getKeys` and an unfiltered `getSorted` give the same items, in some order. -/
def SameItems [UnstableSort] (faults : Faults) (c : Config) (w : World) (wild sortby : Bytes)
    (ascending : Bool) : Prop :=
  ∃ items sorted, answer faults w (getKeys c wild ⟨0, -1⟩) = .ok (true, items) ∧
    answer faults w (getSorted c wild sortby ascending ⟨0, -1⟩ []) = .ok (true, sorted) ∧
    sorted.Perm items

/-- On a store of JSON values, as long as the entries can be counted, both give the same items
if and only if each matching entry is left as it is and the sort is defined. -/
theorem getSorted_sameItems_iff [UnstableSort] {faults : Faults} {c : Config} {w : World}
    {wild sortby : Bytes} {ascending : Bool} (hcache : c.cacheEnabled = false)
    (hdb : c.dbOk = true) (hjson : ∀ e ∈ w.node.db.entries, IsJson e.2)
    (hstar : startsWithStar wild = false) (hcount : (matching w.node.db wild).length ≤ 2 ^ 31) :
    SameItems faults c w wild sortby ascending ↔ KeepsItems sortby (matching w.node.db wild) := by
  have hmatching : ∀ e ∈ matching w.node.db wild, IsJson e.2 := fun e he =>
    hjson e ((matching_sublist _ _).subset he)
  unfold SameItems
  rw [(getKeys_yields hcache hdb hstar w rfl).1, (getSorted_yields hdb hstar w rfl).1,
    listed_eq_matching_iff.mpr hcount, collect_keyedItems hmatching]
  constructor
  · rintro ⟨items, sorted, hkeys, hsorted, hperm⟩
    unfold elements at hkeys
    split at hkeys
    · next hread =>
      cases hkeys
      exact (sortedListing_perm_iff hmatching hread hcount).mp ⟨sorted, hsorted, hperm⟩
    · cases hkeys
  · intro h
    obtain ⟨sorted, hsorted, hperm⟩ :=
      (@sortedListing_perm_iff _ _ ascending _ hmatching h.reads hcount).mpr h
    exact ⟨_, sorted, elements_eq_iff.mpr h.reads, hsorted, hperm⟩

/-- An object and a string. -/
def objectAndString : Store :=
  (OrderedMap.empty.insert (ascii "k1") (ascii "\x7b\"n\":1\x7d")).insert (ascii "k2")
    (ascii "\"x\"")

/-- Objects and strings are listed as they are. -/
theorem sameItems_objectAndString : @SameItems .insertion noFaults uncachedOnly
    (openDB uncachedOnly objectAndString) (ascii "k*") (ascii "n") true := by
  refine (@getSorted_sameItems_iff .insertion _ _ _ _ _ _ rfl rfl (by decide +kernel) (by decide)
    (by decide +kernel)).mpr ?_
  have hmatching : matching objectAndString (ascii "k*") =
      [(ascii "k1", ascii "\x7b\"n\":1\x7d"), (ascii "k2", ascii "\"x\"")] := by decide +kernel
  change KeepsItems (ascii "n") (matching objectAndString (ascii "k*"))
  rw [hmatching]
  refine ⟨?_, by decide +kernel, fun _ => by decide +kernel⟩
  simp only [List.forall_mem_cons, List.not_mem_nil, false_imp_iff, implies_true, and_true]
  exact ⟨⟨by decide +kernel, by decide +kernel, by decide +kernel, by decide +kernel,
    by decide +kernel⟩, ⟨by decide +kernel, by decide +kernel, by decide +kernel,
      by decide +kernel, by decide +kernel⟩⟩

/-- A number is listed as a string. -/
theorem not_sameItems_number : ¬@SameItems .insertion noFaults uncachedOnly
    (openDB uncachedOnly (OrderedMap.empty.insert (ascii "k") (ascii "5"))) (ascii "k*")
    (ascii "n") true := by
  rintro ⟨items, sorted, hkeys, hsorted, hperm⟩
  have hnumber : (answer noFaults
      (openDB uncachedOnly (OrderedMap.empty.insert (ascii "k") (ascii "5")))
      (getKeys uncachedOnly (ascii "k*") ⟨0, -1⟩)).map (fun r => (r.2.map stringCount).sum) =
      .ok 0 := by decide +kernel
  have hstring : (answer noFaults
      (openDB uncachedOnly (OrderedMap.empty.insert (ascii "k") (ascii "5")))
      (@getSorted .insertion uncachedOnly (ascii "k*") (ascii "n") true ⟨0, -1⟩ [])).map
        (fun r => (r.2.map stringCount).sum) = .ok 1 := by decide +kernel
  rw [hkeys] at hnumber
  rw [hsorted] at hstring
  have hsum := (hperm.map stringCount).sum_eq
  have hzero := Except.ok.inj hnumber
  have hone := Except.ok.inj hstring
  simp only at hzero hone
  omega

end Quarks
