import Quarks.Json.RoundTrip

/-!
# A document within a text

A text that is built by concatenation holds stored documents between its own quotes, commas
and brackets. The parser reads such a document in the larger text as it reads it alone, up to
the separator behind it.
-/

namespace Quarks

open NumberState

/-- What may follow a value in a text: nothing, a comma or a closing bracket. -/
def EndsValue (rest : Bytes) : Prop := ∀ c ∈ rest.head?, c = 44 ∨ c = 93 ∨ c = 125

theorem endsValue_cons {c : UInt8} (h : c = 44 ∨ c = 93 ∨ c = 125) (rest : Bytes) :
    EndsValue (c :: rest) := by
  simpa [EndsValue] using h

section

variable {rest : Bytes} (hrest : EndsValue rest)
include hrest

theorem EndsValue.endsNumber : EndsNumber rest := by
  cases rest with
  | nil => exact endsNumber_nil
  | cons c rest => exact endsNumber_cons (hrest c rfl) rest

/-- White space in front of a separator is skipped without it. -/
theorem wsSkip_append (s : Bytes) : wsSkip (s ++ rest) = wsSkip s ++ rest := by
  have hskip : wsSkip rest = rest := by
    cases rest with
    | nil => rfl
    | cons c rest =>
      refine wsSkip_of_ne ?_ rest
      rcases hrest c rfl with rfl | rfl | rfl <;> decide
  unfold wsSkip at hskip ⊢
  rw [List.dropWhile_append]
  split
  · next h => rw [hskip, List.isEmpty_iff.mp h, List.nil_append]
  · rfl

end

/-! ## Strings -/

/-- What may stand between the quotes of a string: no quote and no backslash but in an escape. -/
inductive Escaped : Bytes → Prop
  | nil : Escaped []
  | plain {c : UInt8} {s : Bytes} (hquote : c ≠ 34) (hslash : c ≠ 92) (hs : Escaped s) :
      Escaped (c :: s)
  | letter {c : UInt8} {s : Bytes} (hc : isEscapeLetter c = true) (hs : Escaped s) :
      Escaped (92 :: c :: s)
  | unit {h₁ h₂ h₃ h₄ : UInt8} {s : Bytes}
      (hhex : (isHexDigit h₁ && isHexDigit h₂ && isHexDigit h₃ && isHexDigit h₄) = true)
      (hs : Escaped s) : Escaped (92 :: 117 :: h₁ :: h₂ :: h₃ :: h₄ :: s)

/-- An escape letter is no `u`. -/
theorem ne_of_isEscapeLetter {c : UInt8} (h : isEscapeLetter c = true) : c ≠ 117 := by
  rintro rfl
  cases h

/-- The parser takes such a text up to the quote behind it. -/
theorem Escaped.decodeString {raw : Bytes} (h : Escaped raw) (r : Bytes) :
    decodeString (raw ++ 34 :: r) = some (raw, r) := by
  induction h with
  | nil => simp [Quarks.decodeString]
  | plain hquote hslash hs ih => simp [Quarks.decodeString, hslash, ih]
  | letter hc hs ih => simp [Quarks.decodeString, ne_of_isEscapeLetter hc, hc, ih]
  | unit hhex hs ih => simp [Quarks.decodeString, hhex, ih]

/-- What the parser takes for a string is such a text, with a quote behind it. -/
theorem of_decodeString {s raw r : Bytes} (h : decodeString s = some (raw, r)) :
    Escaped raw ∧ s = raw ++ 34 :: r := by
  induction s using decodeString.induct generalizing raw r with
  | case1 rest =>
    simp only [decodeString, Option.some.injEq, Prod.mk.injEq] at h
    obtain ⟨rfl, rfl⟩ := h
    exact ⟨.nil, rfl⟩
  | case2 h₁ h₂ h₃ h₄ rest hhex ih =>
    simp only [decodeString, hhex, if_true, Option.map_eq_some_iff, Prod.mk.injEq] at h
    obtain ⟨p, hp, rfl, rfl⟩ := h
    obtain ⟨hescaped, hrest⟩ := ih hp
    exact ⟨.unit hhex hescaped, by rw [hrest]; rfl⟩
  | case3 h₁ h₂ h₃ h₄ rest hhex => simp [decodeString, hhex] at h
  | case4 c rest hunit hc ih =>
    simp [decodeString, hc] at h
    obtain ⟨raw', hp, rfl⟩ := h
    obtain ⟨hescaped, hrest⟩ := ih hp
    exact ⟨.letter hc hescaped, by rw [hrest]; rfl⟩
  | case5 c rest hunit hc =>
    rw [decodeString] at h
    · simp [hc] at h
    · exact hunit
  | case6 rest h₁ h₂ h₃ =>
    rw [decodeString] at h
    · cases h
    all_goals assumption
  | case7 c rest hquote h₂ h₃ hslash ih =>
    rw [decodeString] at h
    · rw [if_neg hslash, Option.map_eq_some_iff] at h
      obtain ⟨p, hp, heq⟩ := h
      obtain ⟨rfl, rfl⟩ := Prod.mk.inj heq
      obtain ⟨hescaped, hrest⟩ := ih hp
      exact ⟨.plain (fun h => hquote h) hslash hescaped, by rw [hrest]; rfl⟩
    all_goals assumption
  | case8 => cases h

/-- The parser takes a string up to its quote, whatever follows. -/
theorem decodeString_append {s raw r : Bytes} (h : decodeString s = some (raw, r))
    (rest : Bytes) : decodeString (s ++ rest) = some (raw, r ++ rest) := by
  obtain ⟨hraw, rfl⟩ := of_decodeString h
  rw [List.append_assoc, List.cons_append]
  exact hraw.decodeString _

/-- The text has neither quotes nor backslashes. -/
def Plain (s : Bytes) : Prop := ∀ c ∈ s, c ≠ 34 ∧ c ≠ 92

instance (s : Bytes) : Decidable (Plain s) :=
  inferInstanceAs (Decidable (∀ c ∈ s, c ≠ 34 ∧ c ≠ 92))

theorem Plain.escaped {s : Bytes} (h : Plain s) : Escaped s := by
  induction s with
  | nil => exact .nil
  | cons c s ih =>
    obtain ⟨hc, hs⟩ := List.forall_mem_cons.mp h
    exact .plain hc.1 hc.2 (ih hs)

theorem Plain.unescape_eq {s : Bytes} (h : Plain s) : unescape s = s := by
  induction s with
  | nil => rfl
  | cons c s ih =>
    obtain ⟨hc, hs⟩ := List.forall_mem_cons.mp h
    simp [unescape, hc.2, ih hs]

theorem unescape_letter {c : UInt8} (hc : isEscapeLetter c = true) (s : Bytes) :
    unescape (92 :: c :: s) = escapeTarget c ++ unescape s := by
  simp [unescape, ne_of_isEscapeLetter hc]

/-- A one-letter escape stands for one byte; if it is the letter of a quote, for a quote. -/
theorem escapeTarget_facts : ∀ c : UInt8, isEscapeLetter c = true →
    (escapeTarget c).length = 1 ∧ ([92, c] : Bytes).count 34 ≤ (escapeTarget c).count 34 := by
  intro c hc
  have hmem : c ∈ ([34, 92, 47, 98, 102, 110, 114, 116] : Bytes) := by
    simpa [isEscapeLetter] using hc
  simp only [List.mem_cons, List.not_mem_nil, or_false] at hmem
  rcases hmem with rfl | rfl | rfl | rfl | rfl | rfl | rfl | rfl <;> decide

theorem length_encodeUnit_le (code : ℕ) : (encodeUnit code).length ≤ 3 := by
  unfold encodeUnit
  split_ifs <;> simp

theorem ne_quote_of_isHexDigit {c : UInt8} (h : isHexDigit c = true) : c ≠ 34 := by
  rintro rfl
  cases h

namespace Escaped

variable {raw : Bytes}

/-- Every quote of such a text is escaped, so it stands for a quote. -/
theorem count_quote_le (h : Escaped raw) : raw.count 34 ≤ (unescape raw).count 34 := by
  induction h with
  | nil => exact le_rfl
  | @plain c s hquote hslash hs ih =>
    have hcons : unescape (c :: s) = c :: unescape s := by simp [unescape, hslash]
    rw [hcons, List.count_cons_of_ne hquote, List.count_cons_of_ne hquote]
    exact ih
  | @letter c s hc hs ih =>
    have htarget := (escapeTarget_facts c hc).2
    rw [unescape_letter hc, List.count_append,
      show (92 :: c :: s : Bytes) = [92, c] ++ s from rfl, List.count_append]
    omega
  | @unit h₁ h₂ h₃ h₄ s hhex hs ih =>
    simp only [Bool.and_eq_true] at hhex
    obtain ⟨⟨⟨h₁, h₂⟩, h₃⟩, h₄⟩ := hhex
    rw [unescape, List.count_append, List.count_cons_of_ne (by decide),
      List.count_cons_of_ne (by decide), List.count_cons_of_ne (ne_quote_of_isHexDigit h₁),
      List.count_cons_of_ne (ne_quote_of_isHexDigit h₂),
      List.count_cons_of_ne (ne_quote_of_isHexDigit h₃),
      List.count_cons_of_ne (ne_quote_of_isHexDigit h₄)]
    omega

/-- Escapes are longer than what they stand for. -/
theorem length_unescape (h : Escaped raw) : (unescape raw).length ≤ raw.length ∧
    ((unescape raw).length = raw.length → Plain raw) := by
  induction h with
  | nil => exact ⟨le_rfl, fun _ c hc => by cases hc⟩
  | @plain c s hquote hslash hs ih =>
    have hcons : unescape (c :: s) = c :: unescape s := by simp [unescape, hslash]
    rw [hcons, List.length_cons, List.length_cons]
    refine ⟨by omega, fun heq => ?_⟩
    exact List.forall_mem_cons.mpr ⟨⟨hquote, hslash⟩, ih.2 (by omega)⟩
  | @letter c s hc hs ih =>
    rw [unescape_letter hc, List.length_append, (escapeTarget_facts c hc).1]
    simp only [List.length_cons]
    exact ⟨by omega, by omega⟩
  | @unit h₁ h₂ h₃ h₄ s hhex hs ih =>
    have hle := length_encodeUnit_le
      (fromHex h₁ <<< 12 + fromHex h₂ <<< 8 + fromHex h₃ <<< 4 + fromHex h₄)
    rw [unescape, List.length_append]
    simp only [List.length_cons]
    exact ⟨by omega, by omega⟩

end Escaped

/-- A text between quotes is read as itself only if it has no quotes and no backslashes. -/
theorem plain_of_decodeString {s raw r r' : Bytes}
    (h : decodeString (s ++ 34 :: r) = some (raw, r')) (hs : unescape raw = s) :
    Plain s ∧ raw = s ∧ r' = r := by
  obtain ⟨hraw, hsplit⟩ := of_decodeString h
  rcases List.append_eq_append_iff.mp hsplit with ⟨t, hraw', ht⟩ | ⟨t, hs', ht⟩
  · cases t with
    | nil =>
      rw [List.append_nil] at hraw'
      rw [List.nil_append, List.cons.injEq] at ht
      subst hraw'
      exact ⟨hraw.length_unescape.2 (by rw [hs]), rfl, ht.2.symm⟩
    | cons c t =>
      -- the quote behind the text is an escaped one of the string read
      rw [List.cons_append, List.cons.injEq] at ht
      obtain ⟨rfl, -⟩ := ht
      have hcount := hraw.count_quote_le
      rw [hs, hraw', List.count_append, List.count_cons_self] at hcount
      omega
  · have hlength := hraw.length_unescape.1
    rw [hs, hs', List.length_append] at hlength
    have ht' : t = [] := List.length_eq_zero_iff.mp (by omega)
    subst ht'
    rw [List.append_nil] at hs'
    rw [List.nil_append, List.cons.injEq] at ht
    subst hs'
    exact ⟨hraw.length_unescape.2 (by rw [hs]), rfl, ht.2⟩

/-! ## Numbers and values -/

/-- The parser takes a number up to a separator. -/
theorem decodeNumber_append {st : NumberState} {s token r rest : Bytes} (hrest : EndsValue rest)
    (h : decodeNumber st s = some (token, r)) :
    decodeNumber st (s ++ rest) = some (token, r ++ rest) := by
  induction s generalizing st token r with
  | nil =>
    rw [decodeNumber] at h
    split at h
    · next hst =>
      cases h
      have := @decodeNumber_of_steps st st [] rest rfl hst hrest.endsNumber
      simpa using this
    · cases h
  | cons c s ih =>
    rw [List.cons_append, decodeNumber]
    rw [decodeNumber] at h
    cases hstep : st.step c with
    | none =>
      rw [hstep] at h
      simp only at h ⊢
      split at h
      · next hst =>
        cases h
        rw [if_pos hst]
        rfl
      · cases h
    | some st' =>
      rw [hstep] at h
      simp only at h ⊢
      split at h
      · cases h
      · next hst =>
        obtain ⟨p, hp, heq⟩ := Option.map_eq_some_iff.mp h
        obtain ⟨rfl, rfl⟩ := Prod.mk.inj heq
        rw [if_neg hst, ih hp]
        rfl

/-- What is decoded as a number starts like one. -/
theorem head_of_decodeNumber {s token r : Bytes} (h : decodeNumber .minus s = some (token, r)) :
    ∃ c t, s = c :: t ∧ (c = 45 ∨ isDigit c = true) := by
  cases s with
  | nil => cases h
  | cons c s =>
    refine ⟨c, s, rfl, ?_⟩
    rw [decodeNumber] at h
    have hdigit : ∀ {a : UInt8}, 49 ≤ a → 48 ≤ a := fun ha => le_trans (by decide) ha
    simp only [NumberState.step] at h
    simp only [isDigit, Bool.and_eq_true, decide_eq_true_eq]
    split_ifs at h with h₁ h₂ h₃ h₄ h₅ h₆ <;> simp_all [NumberState.accepts]

section

variable {fuel : ℕ} {t r : Bytes}

theorem decodeValue_nilList (h : wsSkip t = 93 :: r) :
    decodeValue (fuel + 1) (91 :: t) = some (.list [], r) := by
  simp [decodeValue, h]

theorem decodeValue_list (h : ∀ u, wsSkip t ≠ 93 :: u) : decodeValue (fuel + 1) (91 :: t) =
    (decodeList fuel (wsSkip t)).map fun p => (.list p.1, p.2) := by
  simp only [decodeValue]

theorem decodeValue_nilObject (h : wsSkip t = 125 :: r) :
    decodeValue (fuel + 1) (123 :: t) = some (.object [], r) := by
  simp [decodeValue, h]

theorem decodeValue_object (h : ∀ u, wsSkip t ≠ 125 :: u) : decodeValue (fuel + 1) (123 :: t) =
    (decodeObject fuel (wsSkip t)).map fun p => (.object p.1, p.2) := by
  simp only [decodeValue]

theorem decodeValue_string : decodeValue (fuel + 1) (34 :: t) =
    (decodeString t).map fun p => (.string p.1, p.2) := by
  simp [decodeValue]

/-- The ways in which the parser takes a value. -/
inductive Decodes (fuel : ℕ) : Bytes → RValue → Bytes → Prop
  | nilList {t r : Bytes} (h : wsSkip t = 93 :: r) : Decodes fuel (91 :: t) (.list []) r
  | list {t r : Bytes} {l : List RValue} (hne : ∀ u, wsSkip t ≠ 93 :: u)
      (h : decodeList fuel (wsSkip t) = some (l, r)) : Decodes fuel (91 :: t) (.list l) r
  | nilObject {t r : Bytes} (h : wsSkip t = 125 :: r) : Decodes fuel (123 :: t) (.object []) r
  | object {t r : Bytes} {o : List (Bytes × RValue)} (hne : ∀ u, wsSkip t ≠ 125 :: u)
      (h : decodeObject fuel (wsSkip t) = some (o, r)) : Decodes fuel (123 :: t) (.object o) r
  | string {t raw r : Bytes} (h : decodeString t = some (raw, r)) :
      Decodes fuel (34 :: t) (.string raw) r
  | true {r : Bytes} : Decodes fuel (116 :: 114 :: 117 :: 101 :: r) (.bool true) r
  | false {r : Bytes} : Decodes fuel (102 :: 97 :: 108 :: 115 :: 101 :: r) (.bool false) r
  | null {r : Bytes} : Decodes fuel (110 :: 117 :: 108 :: 108 :: r) .null r
  | number {c : UInt8} {t token r : Bytes} (hc : c = 45 ∨ isDigit c = Bool.true)
      (h : decodeNumber .minus (c :: t) = some (token, r)) :
      Decodes fuel (c :: t) (.number token) r

/-- The parser takes a value in one of these ways. -/
theorem decodeValue_eq_some {s : Bytes} {x : RValue} :
    decodeValue (fuel + 1) s = some (x, r) ↔ Decodes fuel s x r := by
  constructor
  · intro h
    unfold decodeValue at h
    split at h
    · next t =>
      split at h
      · next u hu =>
        cases h
        exact .nilList hu
      · next hne =>
        obtain ⟨p, hp, heq⟩ := Option.map_eq_some_iff.mp h
        cases heq
        exact .list hne hp
    · next t =>
      split at h
      · next u hu =>
        cases h
        exact .nilObject hu
      · next hne =>
        obtain ⟨p, hp, heq⟩ := Option.map_eq_some_iff.mp h
        cases heq
        exact .object hne hp
    · next t =>
      obtain ⟨p, hp, heq⟩ := Option.map_eq_some_iff.mp h
      cases heq
      exact .string hp
    · cases h
      exact .true
    · cases h
      exact .false
    · cases h
      exact .null
    · obtain ⟨p, hp, heq⟩ := Option.map_eq_some_iff.mp h
      cases heq
      obtain ⟨c, t, rfl, hc⟩ := head_of_decodeNumber hp
      exact .number hc hp
  · intro h
    cases h with
    | nilList h => exact decodeValue_nilList h
    | list hne h => rw [decodeValue_list hne, h]; rfl
    | nilObject h => exact decodeValue_nilObject h
    | object hne h => rw [decodeValue_object hne, h]; rfl
    | string h => rw [decodeValue_string, h]; rfl
    | true | false | null => rfl
    | number hc h => rw [decodeValue_number hc, h]; rfl

theorem decodeValue_nil : decodeValue fuel [] = none := by
  cases fuel with
  | zero => rfl
  | succ fuel =>
    cases h : decodeValue (fuel + 1) [] with
    | none => rfl
    | some p => cases decodeValue_eq_some.mp h

theorem decodeList_nil : decodeList fuel [] = none := by
  cases fuel with
  | zero => rfl
  | succ fuel => rw [decodeList, decodeValue_nil, Option.bind_none]

theorem decodeObject_nil : decodeObject fuel [] = none := by
  cases fuel <;> rfl

/-- The ways in which the loop over the elements goes on behind one. -/
theorem decodeList_eq_some {s : Bytes} {l : List RValue} :
    decodeList (fuel + 1) s = some (l, r) ↔ ∃ x r₁, decodeValue fuel s = some (x, r₁) ∧
      (wsSkip r₁ = 93 :: r ∧ l = [x] ∨ ∃ t l', wsSkip r₁ = 44 :: t ∧
        decodeList fuel (wsSkip t) = some (l', r) ∧ l = x :: l') := by
  rw [decodeList, Option.bind_eq_some_iff]
  constructor
  · rintro ⟨p, hp, h⟩
    refine ⟨p.1, p.2, hp, ?_⟩
    split at h
    · next hskip =>
      cases h
      exact Or.inl ⟨hskip, rfl⟩
    · next t hskip =>
      obtain ⟨q, hq, heq⟩ := Option.map_eq_some_iff.mp h
      cases heq
      exact Or.inr ⟨t, q.1, hskip, hq, rfl⟩
    · cases h
  · rintro ⟨x, r₁, hx, h⟩
    refine ⟨(x, r₁), hx, ?_⟩
    rcases h with ⟨hskip, rfl⟩ | ⟨t, l', hskip, hl, rfl⟩
    · simp only [hskip]
    · simp only [hskip, hl]
      rfl

/-- The ways in which the loop over the fields takes one and goes on behind it. -/
theorem decodeObject_eq_some {s : Bytes} {o : List (Bytes × RValue)} :
    decodeObject (fuel + 1) s = some (o, r) ↔ ∃ t name u v x r₁, s = 34 :: t ∧
      decodeString t = some (name, u) ∧ wsSkip u = 58 :: v ∧
      decodeValue fuel (wsSkip v) = some (x, r₁) ∧
      (wsSkip r₁ = 125 :: r ∧ o = [(unescape name, x)] ∨ ∃ t' o', wsSkip r₁ = 44 :: t' ∧
        decodeObject fuel (wsSkip t') = some (o', r) ∧ o = (unescape name, x) :: o') := by
  constructor
  · intro h
    unfold decodeObject at h
    split at h
    · next t =>
      obtain ⟨name, hname, h⟩ := Option.bind_eq_some_iff.mp h
      split at h
      · next v hv =>
        obtain ⟨p, hp, h⟩ := Option.bind_eq_some_iff.mp h
        refine ⟨t, name.1, name.2, v, p.1, p.2, rfl, hname, hv, hp, ?_⟩
        split at h
        · next hskip =>
          cases h
          exact Or.inl ⟨hskip, rfl⟩
        · next t' hskip =>
          obtain ⟨q, hq, heq⟩ := Option.map_eq_some_iff.mp h
          cases heq
          exact Or.inr ⟨t', q.1, hskip, hq, rfl⟩
        · cases h
      · cases h
    · cases h
  · rintro ⟨t, name, u, v, x, r₁, rfl, hname, hv, hx, h⟩
    simp only [decodeObject, hname, Option.bind_some, hv, hx]
    rcases h with ⟨hskip, rfl⟩ | ⟨t', o', hskip, ho, rfl⟩
    · simp only [hskip]
    · simp only [hskip, ho]
      rfl

end

/-- A field whose name is written between quotes, and what comes behind it. -/
theorem decodeObject_field {fuel : ℕ} {name t r : Bytes} {o : List (Bytes × RValue)}
    (hname : Plain name) : decodeObject (fuel + 1) (34 :: (name ++ 34 :: 58 :: t)) = some (o, r) ↔
      ∃ x r₁, decodeValue fuel (wsSkip t) = some (x, r₁) ∧
        (wsSkip r₁ = 125 :: r ∧ o = [(name, x)] ∨ ∃ t' o', wsSkip r₁ = 44 :: t' ∧
          decodeObject fuel (wsSkip t') = some (o', r) ∧ o = (name, x) :: o') := by
  have hstring := hname.escaped.decodeString (58 :: t)
  have hskip : wsSkip (58 :: t) = 58 :: t := wsSkip_of_ne (by decide) t
  rw [decodeObject_eq_some]
  constructor
  · rintro ⟨t', name', u, v, x, r₁, ht, hname', hv, hx, h⟩
    cases ht
    rw [hstring] at hname'
    cases hname'
    rw [hskip] at hv
    cases hv
    rw [hname.unescape_eq] at h
    exact ⟨x, r₁, hx, h⟩
  · rintro ⟨x, r₁, hx, h⟩
    refine ⟨_, name, 58 :: t, t, x, r₁, rfl, hstring, hskip, hx, ?_⟩
    rwa [hname.unescape_eq]

section

variable {rest : Bytes} (hrest : EndsValue rest)
include hrest

/-- White space that ends at a character still does so. -/
theorem wsSkip_append_cons {s r : Bytes} {c : UInt8} (h : wsSkip s = c :: r) :
    wsSkip (s ++ rest) = c :: (r ++ rest) := by
  rw [wsSkip_append hrest, h, List.cons_append]

/-- A text behind a separator adds no first character. -/
theorem wsSkip_append_ne {s : Bytes} {c : UInt8} (h : ∀ u, wsSkip s ≠ c :: u)
    (hs : wsSkip s ≠ []) (u : Bytes) : wsSkip (s ++ rest) ≠ c :: u := by
  rw [wsSkip_append hrest]
  obtain ⟨d, v, hskip⟩ := List.exists_cons_of_ne_nil hs
  rw [hskip, List.cons_append]
  rintro heq
  exact h v (by rw [hskip, (List.cons.inj heq).1])

/-- More fuel and more text behind a separator do not change what the parser takes. -/
theorem decode_append (fuel : ℕ) :
    (∀ fuel' s x r, fuel ≤ fuel' → decodeValue fuel s = some (x, r) →
      decodeValue fuel' (s ++ rest) = some (x, r ++ rest)) ∧
    (∀ fuel' s l r, fuel ≤ fuel' → decodeList fuel s = some (l, r) →
      decodeList fuel' (s ++ rest) = some (l, r ++ rest)) ∧
    (∀ fuel' s o r, fuel ≤ fuel' → decodeObject fuel s = some (o, r) →
      decodeObject fuel' (s ++ rest) = some (o, r ++ rest)) := by
  induction fuel with
  | zero =>
    refine ⟨?_, ?_, ?_⟩ <;> intro fuel' s _ r _ h
    · rw [decodeValue] at h
      cases h
    · rw [decodeList] at h
      cases h
    · rw [decodeObject] at h
      cases h
  | succ fuel ih =>
    obtain ⟨ihValue, ihList, ihObject⟩ := ih
    refine ⟨?_, ?_, ?_⟩ <;> intro fuel' s x r hfuel h
    all_goals
      obtain ⟨fuel', rfl⟩ := Nat.exists_eq_add_of_le' (show 1 ≤ fuel' by omega)
      have hle : fuel ≤ fuel' := by omega
    · rw [decodeValue_eq_some] at h ⊢
      cases h with
      | nilList h => exact .nilList (wsSkip_append_cons hrest h)
      | list hne h =>
        refine .list (wsSkip_append_ne hrest hne fun hnil => ?_) ?_
        · rw [hnil, decodeList_nil] at h
          cases h
        · change decodeList fuel' (wsSkip (_ ++ rest)) = _
          rw [wsSkip_append hrest]
          exact ihList _ _ _ _ hle h
      | nilObject h => exact .nilObject (wsSkip_append_cons hrest h)
      | object hne h =>
        refine .object (wsSkip_append_ne hrest hne fun hnil => ?_) ?_
        · rw [hnil, decodeObject_nil] at h
          cases h
        · change decodeObject fuel' (wsSkip (_ ++ rest)) = _
          rw [wsSkip_append hrest]
          exact ihObject _ _ _ _ hle h
      | string h => exact .string (decodeString_append h rest)
      | true => exact .true
      | false => exact .false
      | null => exact .null
      | number hc h => exact .number hc (decodeNumber_append hrest h)
    · obtain ⟨y, r₁, hy, h⟩ := decodeList_eq_some.mp h
      refine decodeList_eq_some.mpr ⟨y, r₁ ++ rest, ihValue _ _ _ _ hle hy, ?_⟩
      rcases h with ⟨hskip, rfl⟩ | ⟨t, l', hskip, hl, rfl⟩
      · exact Or.inl ⟨wsSkip_append_cons hrest hskip, rfl⟩
      · refine Or.inr ⟨_, l', wsSkip_append_cons hrest hskip, ?_, rfl⟩
        rw [wsSkip_append hrest]
        exact ihList _ _ _ _ hle hl
    · obtain ⟨t, name, u, v, y, r₁, rfl, hname, hv, hy, h⟩ := decodeObject_eq_some.mp h
      refine decodeObject_eq_some.mpr ⟨t ++ rest, name, u ++ rest, v ++ rest, y, r₁ ++ rest, rfl,
        decodeString_append hname rest, wsSkip_append_cons hrest hv, ?_, ?_⟩
      · rw [wsSkip_append hrest]
        exact ihValue _ _ _ _ hle hy
      · rcases h with ⟨hskip, rfl⟩ | ⟨t', o', hskip, ho, rfl⟩
        · exact Or.inl ⟨wsSkip_append_cons hrest hskip, rfl⟩
        · refine Or.inr ⟨_, o', wsSkip_append_cons hrest hskip, ?_, rfl⟩
          rw [wsSkip_append hrest]
          exact ihObject _ _ _ _ hle ho

/-- A document within a text is read as it is read alone. -/
theorem decodeValue_spliced {v : Bytes} {x : RValue} (hv : load v = some x)
    (hzero : (0 : UInt8) ∉ v) {fuel : ℕ} (hfuel : 2 * v.length + 2 ≤ fuel) :
    ∃ r, decodeValue fuel (wsSkip (v ++ rest)) = some (x, r) ∧ wsSkip r = rest := by
  rw [load, cstr_eq_self hzero, parse, Option.bind_eq_some_iff] at hv
  obtain ⟨p, hp, hv⟩ := hv
  split at hv
  · next hskip =>
    cases hv
    refine ⟨p.2 ++ rest, ?_, ?_⟩
    · rw [wsSkip_append hrest]
      exact (decode_append hrest _).1 _ _ _ _ hfuel hp
    · rw [wsSkip_append hrest, hskip, List.nil_append]
  · cases hv

end

/-- A text that starts as an object is one, if it is a document. -/
theorem load_brace {s : Bytes} {x : RValue} (h : load (123 :: s) = some x) :
    ∃ o, x = .object o := by
  have hcstr : cstr (123 :: s) = 123 :: cstr s := List.takeWhile_cons_of_pos (by decide)
  rw [load, hcstr, parse, wsSkip_of_ne (by decide), Option.bind_eq_some_iff] at h
  obtain ⟨⟨y, r⟩, hy, h⟩ := h
  split at h
  · cases h
    cases decodeValue_eq_some.mp hy with
    | nilObject => exact ⟨_, rfl⟩
    | object => exact ⟨_, rfl⟩
    | number hc => exact absurd hc (by decide)
  · cases h

/-- An object is read field by field, up to a first zero byte behind the first name. -/
theorem load_firstField {name body : Bytes} {o : List (Bytes × RValue)} (hname : Plain name)
    (hzero : (0 : UInt8) ∉ name) :
    load (123 :: 34 :: (name ++ 34 :: 58 :: body)) = some (.object o) ↔
      ∃ x r₁ r, decodeValue (2 * (name.length + 4 + (cstr body).length)) (wsSkip (cstr body)) =
          some (x, r₁) ∧ wsSkip r = [] ∧
        (wsSkip r₁ = 125 :: r ∧ o = [(name, x)] ∨ ∃ t o', wsSkip r₁ = 44 :: t ∧
          decodeObject (2 * (name.length + 4 + (cstr body).length)) (wsSkip t) = some (o', r) ∧
          o = (name, x) :: o') := by
  have hcstr : cstr (123 :: 34 :: (name ++ 34 :: 58 :: body)) =
      123 :: 34 :: (name ++ 34 :: 58 :: cstr body) := by
    have hpass : ∀ a ∈ name, decide (a ≠ 0) = true := fun a ha => by
      simpa using fun h : a = 0 => hzero (h ▸ ha)
    rw [cstr, List.takeWhile_cons_of_pos (by decide), List.takeWhile_cons_of_pos (by decide),
      List.takeWhile_append_of_pos hpass, List.takeWhile_cons_of_pos (by decide),
      List.takeWhile_cons_of_pos (by decide)]
    rfl
  have hlen : (123 :: 34 :: (name ++ 34 :: 58 :: cstr body)).length =
      name.length + 4 + (cstr body).length := by
    simp
    omega
  have hquote : ∀ s : Bytes, wsSkip (34 :: s) = 34 :: s := wsSkip_of_ne (by decide)
  rw [load, hcstr, parse, hlen, Option.bind_eq_some_iff]
  generalize 2 * (name.length + 4 + (cstr body).length) = fuel
  rw [wsSkip_of_ne (by decide), decodeValue_object (by rw [hquote]; simp), hquote]
  constructor
  · rintro ⟨p, hp, h⟩
    obtain ⟨⟨o', r⟩, ho, rfl⟩ := Option.map_eq_some_iff.mp hp
    split at h
    · next hskip =>
      cases h
      obtain ⟨x, r₁, hx, h⟩ := (decodeObject_field hname).mp ho
      exact ⟨x, r₁, r, hx, hskip, h⟩
    · cases h
  · rintro ⟨x, r₁, r, hx, hskip, h⟩
    have ho : decodeObject (fuel + 1) (34 :: (name ++ 34 :: 58 :: cstr body)) = some (o, r) :=
      (decodeObject_field hname).mpr ⟨x, r₁, hx, h⟩
    exact ⟨(.object o, r), by rw [ho]; rfl, if_pos hskip⟩

end Quarks
