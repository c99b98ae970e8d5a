import Quarks.Json.Dump

/-!
# What is printed can be loaded

The parser accepts every text that the printer writes and finds in it the tokens
that were printed. Strings come back unchanged; a number comes back as the token
printed for it, which may stand for another double than the one printed.
-/

namespace Quarks

open NumberState

/-! ## Strings -/

private theorem encodeUnit_control : ∀ n < 32, encodeUnit
    (fromHex 48 <<< 12 + fromHex 48 <<< 8 + fromHex (hexDigit (n / 16)) <<< 4 +
      fromHex (hexDigit (n % 16))) = [UInt8.ofNat n] := by decide

private theorem isHexDigit_control : ∀ n < 32,
    isHexDigit (hexDigit (n / 16)) = true ∧ isHexDigit (hexDigit (n % 16)) = true := by decide

/-- The printed form of a character unescapes to the character. -/
theorem unescape_escapeChar (c : UInt8) (s : Bytes) :
    unescape (escapeChar c ++ s) = c :: unescape s := by
  unfold escapeChar
  split_ifs with h₁ h₂ h₃ h₄ h₅ h₆ h₇ h₈
  · subst h₁; simp [unescape, escapeTarget]
  · subst h₂; simp [unescape, escapeTarget]
  · subst h₃; simp [unescape, escapeTarget]
  · subst h₄; simp [unescape, escapeTarget]
  · subst h₅; simp [unescape, escapeTarget]
  · subst h₆; simp [unescape, escapeTarget]
  · subst h₇; simp [unescape, escapeTarget]
  · have h := encodeUnit_control c.toNat (UInt8.lt_iff_toNat_lt.mp h₈)
    simp only [List.cons_append, List.nil_append, unescape, h, UInt8.ofNat_toNat]
  · simp [unescape, h₂]

/-- Escaping and unescaping a string gives the string. -/
@[simp] theorem unescape_escape (s : Bytes) : unescape (escape s) = s := by
  induction s with
  | nil => rfl
  | cons c s ih => rw [escape, List.flatMap_cons, unescape_escapeChar, ← escape, ih]

/-- The parser passes over the printed form of a character. -/
theorem decodeString_escapeChar (c : UInt8) (s : Bytes) :
    decodeString (escapeChar c ++ s) =
      (decodeString s).map fun p => (escapeChar c ++ p.1, p.2) := by
  unfold escapeChar
  split_ifs with h₁ h₂ h₃ h₄ h₅ h₆ h₇ h₈
  · simp [decodeString, isEscapeLetter]
  · simp [decodeString, isEscapeLetter]
  · simp [decodeString, isEscapeLetter]
  · simp [decodeString, isEscapeLetter]
  · simp [decodeString, isEscapeLetter]
  · simp [decodeString, isEscapeLetter]
  · simp [decodeString, isEscapeLetter]
  · obtain ⟨hhi, hlo⟩ := isHexDigit_control c.toNat (UInt8.lt_iff_toNat_lt.mp h₈)
    simp [decodeString, hhi, hlo, show isHexDigit 48 = true from rfl]
  · simp [decodeString, h₂]

theorem decodeString_escape (s rest : Bytes) :
    decodeString (escape s ++ 34 :: rest) = some (escape s, rest) := by
  induction s with
  | nil => simp [escape, decodeString]
  | cons c s ih =>
    rw [escape, List.flatMap_cons, List.append_assoc, ← escape, decodeString_escapeChar, ih]
    rfl

/-! ## Numbers -/

/-- A decimal text has as many digits as the number needs. -/
private theorem decimalWithin_bounds {places n : ℕ} (h : n < places) :
    n < 10 ^ (decimalWithin places n).length ∧
      (0 < n → 10 ^ (decimalWithin places n).length ≤ 10 * n) := by
  induction places generalizing n with
  | zero => omega
  | succ places ih =>
    rw [decimalWithin]
    split
    · next hn =>
      simp only [List.length_singleton, pow_one]
      omega
    · next hn =>
      obtain ⟨hupper, hlower⟩ := ih (show n / 10 < places by omega)
      have hlower := hlower (by omega)
      simp only [List.length_append, List.length_singleton, pow_succ]
      omega

theorem lt_pow_length_decimal (n : ℕ) : n < 10 ^ (decimal n).length :=
  (decimalWithin_bounds (Nat.lt_succ_self n)).1

theorem pow_length_decimal_le {n : ℕ} (h : 0 < n) : 10 ^ (decimal n).length ≤ 10 * n :=
  (decimalWithin_bounds (Nat.lt_succ_self n)).2 h

/-- The text of a positive number starts with a digit from `1` to `9`. -/
private theorem decimalWithin_head {places n : ℕ} (hn : 0 < n) (h : n < places) :
    ∃ c s, decimalWithin places n = c :: s ∧ 49 ≤ c ∧ c ≤ 57 := by
  induction places generalizing n with
  | zero => omega
  | succ places ih =>
    rw [decimalWithin]
    split
    · next hlt =>
      refine ⟨digitChar n, [], rfl, ?_⟩
      interval_cases n <;> decide
    · next hge =>
      obtain ⟨c, s, heq, hc⟩ := ih (show 0 < n / 10 by omega) (by omega)
      exact ⟨c, s ++ [digitChar (n % 10)], by rw [heq]; rfl, hc⟩

theorem decimal_head {n : ℕ} (hn : 0 < n) :
    ∃ c s, decimal n = c :: s ∧ (49 ≤ c ∧ c ≤ 57) ∧ ∀ d ∈ s, isDigit d = true := by
  obtain ⟨c, s, heq, hc⟩ := decimalWithin_head hn (Nat.lt_succ_self n)
  refine ⟨c, s, heq, hc, ?_⟩
  intro d hd
  have hmem : d ∈ decimalWithin (n + 1) n := heq ▸ List.mem_cons_of_mem c hd
  exact isDigit_of_mem_decimal hmem

theorem powerFraction_pos {base : ℕ} (hb : 0 < base) (e : ℤ) :
    0 < (powerFraction base e).1 ∧ 0 < (powerFraction base e).2 := by
  unfold powerFraction
  split <;> simp [Nat.pow_pos hb]

/-- The decimal exponent is not too large: the fraction is at least that power of ten. -/
theorem decimalExponent_le {num den : ℕ} (hnum : 0 < num) :
    den * (powerFraction 10 (decimalExponent num den)).1 ≤
      num * (powerFraction 10 (decimalExponent num den)).2 := by
  have hn := pow_length_decimal_le hnum
  have hd := lt_pow_length_decimal den
  generalize hk : ((decimal num).length - (decimal den).length : ℤ) = k
  simp only [decimalExponent, hk]
  split
  · next h => exact h
  · unfold powerFraction
    split
    · next h0 =>
      have hlen : (decimal den).length + (k - 1).toNat + 1 = (decimal num).length := by omega
      have hpow := Nat.mul_le_mul_right (10 ^ (k - 1).toNat) hd.le
      rw [← pow_add] at hpow
      rw [← hlen, pow_succ] at hn
      simp only [mul_one]
      omega
    · next h0 =>
      have hlen : (decimal num).length + (-(k - 1)).toNat = (decimal den).length + 1 := by omega
      have hpow := Nat.mul_le_mul_right (10 ^ (-(k - 1)).toNat) hn
      rw [← pow_add, hlen, pow_succ, mul_assoc] at hpow
      simp only [mul_one]
      omega

theorem powerFraction_mono {base : ℕ} (hb : 0 < base) {e e' : ℤ} (h : e ≤ e') :
    (powerFraction base e).1 ≤ (powerFraction base e').1 ∧
      (powerFraction base e').2 ≤ (powerFraction base e).2 := by
  unfold powerFraction
  split <;> split
  · exact ⟨Nat.pow_le_pow_right hb (by omega), le_rfl⟩
  · omega
  · exact ⟨Nat.one_le_pow _ _ hb, Nat.one_le_pow _ _ hb⟩
  · exact ⟨le_rfl, Nat.pow_le_pow_right hb (by omega)⟩

theorem nearest_pos {num den : ℕ} (hden : 0 < den) (h : den ≤ num) : 0 < nearest num den := by
  have hq : 0 < num / den := Nat.div_pos h hden
  unfold nearest
  simp only
  split <;> omega

/-- The ten significant digits of a positive fraction are not all zero. -/
theorem scaled_decimalExponent_pos {num den : ℕ} (hnum : 0 < num) (hden : 0 < den) :
    0 < scaled num den 10 (decimalExponent num den - 9) := by
  have hle : den * (powerFraction 10 (decimalExponent num den)).1 ≤
      num * (powerFraction 10 (decimalExponent num den)).2 := decimalExponent_le hnum
  have hmono := powerFraction_mono (show 0 < 10 by decide)
    (show decimalExponent num den - 9 ≤ decimalExponent num den by omega)
  refine nearest_pos (Nat.mul_pos hden (powerFraction_pos (by decide) _).1) ?_
  calc den * (powerFraction 10 (decimalExponent num den - 9)).1
      ≤ den * (powerFraction 10 (decimalExponent num den)).1 := Nat.mul_le_mul_left _ hmono.1
    _ ≤ num * (powerFraction 10 (decimalExponent num den)).2 := hle
    _ ≤ num * (powerFraction 10 (decimalExponent num den - 9)).2 :=
      Nat.mul_le_mul_left _ hmono.2


namespace NumberState

@[simp] theorem steps_nil (st : NumberState) : st.steps [] = some st := rfl

theorem steps_append {st st' : NumberState} {s : Bytes} (h : st.steps s = some st')
    (s' : Bytes) : st.steps (s ++ s') = st'.steps s' := by
  induction s generalizing st with
  | nil => cases h; rfl
  | cons c s ih =>
    simp only [List.cons_append, steps] at h ⊢
    cases hstep : st.step c with
    | none => simp [hstep] at h
    | some st₁ =>
      simp only [hstep, Option.bind_some] at h ⊢
      split at h
      · cases h
      · next hne => rw [if_neg hne, ih h]

/-- In these states more digits do not change the state. -/
def skipsDigits (st : NumberState) : Prop :=
  st = digits ∨ st = digitsAfterPoints ∨ st = digitsAfterE

theorem step_digit {st : NumberState} (hst : st.skipsDigits) {c : UInt8}
    (hc : isDigit c = true) : st.step c = some st := by
  simp only [isDigit, Bool.and_eq_true, decide_eq_true_eq] at hc
  have hcases : c = 48 ∨ c ≠ 48 ∧ 49 ≤ c ∧ c ≤ 57 := by
    simp only [UInt8.le_iff_toNat_le, ← UInt8.toNat_inj, ne_eq] at hc ⊢
    simp only [UInt8.reduceToNat] at hc ⊢
    omega
  rcases hcases with rfl | ⟨hne, hc⟩ <;> rcases hst with rfl | rfl | rfl <;> simp [step, *]

theorem steps_digits {st : NumberState} (hst : st.skipsDigits) {s : Bytes}
    (hs : ∀ c ∈ s, isDigit c = true) : st.steps s = some st := by
  induction s with
  | nil => rfl
  | cons c s ih =>
    have hne : st ≠ invalid := by rcases hst with rfl | rfl | rfl <;> decide
    rw [steps, step_digit hst (hs c List.mem_cons_self), Option.bind_some, if_neg hne]
    exact ih fun d hd => hs d (List.mem_cons_of_mem c hd)

/-- A first digit from `1` to `9` starts the whole part of a number. -/
theorem steps_first {st : NumberState} (hst : st = minus ∨ st = afterMinus) {c : UInt8}
    (hc : 49 ≤ c ∧ c ≤ 57) (s : Bytes) : st.steps (c :: s) = digits.steps s := by
  have hne : c ≠ 48 := by
    rintro rfl
    exact absurd hc.1 (by decide)
  rcases hst with rfl | rfl <;> simp [steps, step, hne, hc]

end NumberState

private theorem mem_stripZeros {s : Bytes} {c : UInt8} (h : c ∈ stripZeros s) : c ∈ s :=
  (List.rdropWhile_prefix _ s).subset h

/-- A fraction may follow the whole part of a number. -/
private theorem steps_fraction {s : Bytes} (hs : ∀ c ∈ s, isDigit c = true) :
    ∃ st, digits.steps (fraction (stripZeros s)) = some st ∧
      (st = digits ∨ st = digitsAfterPoints) := by
  unfold fraction
  split
  · exact ⟨digits, rfl, Or.inl rfl⟩
  · refine ⟨digitsAfterPoints, ?_, Or.inr rfl⟩
    exact steps_digits (Or.inr (Or.inl rfl)) fun c hc => hs c (mem_stripZeros hc)

private theorem steps_printExponent {st : NumberState} (hst : st = digits ∨ st = digitsAfterPoints)
    (x : ℤ) : st.steps (printExponent x) = some digitsAfterE := by
  have hdigits : ∀ c ∈ (if x.natAbs < 10 then 48 :: decimal x.natAbs else decimal x.natAbs),
      isDigit c = true := by
    intro c hc
    split at hc
    · rcases List.mem_cons.mp hc with rfl | hc
      · rfl
      · exact isDigit_of_mem_decimal hc
    · exact isDigit_of_mem_decimal hc
  have htail := steps_digits (show digitsAfterE.skipsDigits from Or.inr (Or.inr rfl)) hdigits
  rcases hst with rfl | rfl <;> unfold printExponent <;> split <;> exact htail

/-- Ten digits, not all zero, are laid out as a number. -/
private theorem steps_layout {st : NumberState} (hst : st = minus ∨ st = afterMinus) {q : ℕ}
    (hq : 0 < q) (x : ℤ) : ∃ st', st.steps (layout q x) = some st' ∧ st'.accepts = true := by
  obtain ⟨c, s, heq, hc, hs⟩ := decimal_head hq
  have hall : ∀ d ∈ c :: s, isDigit d = true := fun d hd => isDigit_of_mem_decimal (heq ▸ hd)
  simp only [layout, heq]
  split_ifs with h₁ h₂
  · obtain ⟨st', hfrac, hst'⟩ := steps_fraction hs
    refine ⟨digitsAfterE, ?_, rfl⟩
    rw [List.take_succ_cons, List.take_zero, List.drop_one, List.tail_cons, List.append_assoc,
      List.singleton_append, steps_first hst hc, steps_append hfrac, steps_printExponent hst']
  · obtain ⟨st', hfrac, hst'⟩ := steps_fraction (s := s.drop x.toNat)
      fun d hd => hs d (List.mem_of_mem_drop hd)
    refine ⟨st', ?_, by rcases hst' with rfl | rfl <;> rfl⟩
    rw [List.take_succ_cons, List.drop_succ_cons, List.cons_append, steps_first hst hc,
      steps_append (steps_digits (Or.inl rfl) fun d hd => hs d (List.mem_of_mem_take hd)), hfrac]
  · refine ⟨digitsAfterPoints, ?_, rfl⟩
    have hpoint : st.steps [48, 46] = some digitsAfterPoints := by
      rcases hst with rfl | rfl <;> rfl
    rw [List.append_assoc, steps_append hpoint]
    refine steps_digits (Or.inr (Or.inl rfl)) fun d hd => ?_
    rcases List.mem_append.mp hd with hd | hd
    · rw [List.eq_of_mem_replicate hd]
      rfl
    · exact hall d (mem_stripZeros hd)

/-- A printed double is a number for the parser. -/
theorem steps_printG10 (d : Double) :
    ∃ st, minus.steps (printG10 d) = some st ∧ st.accepts = true := by
  have hunsigned : ∀ st, st = minus ∨ st = afterMinus → ∀ t : Bytes,
      (t = [48] ∨ ∃ q x, 0 < q ∧ t = layout q x) →
      ∃ st', st.steps t = some st' ∧ st'.accepts = true := by
    rintro st hst t (rfl | ⟨q, x, hq, rfl⟩)
    · exact ⟨zeroFirst, by rcases hst with rfl | rfl <;> rfl, rfl⟩
    · exact steps_layout hst hq x
  obtain ⟨t, ht, hshape⟩ : ∃ t : Bytes, printG10 d = (if d.negative then [45] else []) ++ t ∧
      (t = [48] ∨ ∃ q x, 0 < q ∧ t = layout q x) := by
    unfold printG10
    simp only
    split
    · exact ⟨[48], rfl, Or.inl rfl⟩
    · next hm =>
      refine ⟨_, rfl, Or.inr ?_⟩
      split
      · exact ⟨_, _, by decide, rfl⟩
      · refine ⟨_, _, scaled_decimalExponent_pos ?_ (powerFraction_pos (by decide) _).2, rfl⟩
        exact Nat.mul_pos (Nat.pos_of_ne_zero hm) (powerFraction_pos (by decide) _).1
  rw [ht]
  split
  · rw [steps_append (show minus.steps [45] = some afterMinus from rfl)]
    exact hunsigned _ (Or.inr rfl) t hshape
  · exact hunsigned _ (Or.inl rfl) t hshape

/-- What may follow a number: nothing, or a character that is not part of one. -/
def EndsNumber (rest : Bytes) : Prop := ∀ c ∈ rest.head?, ∀ st : NumberState, st.step c = none

theorem endsNumber_nil : EndsNumber [] := by simp [EndsNumber]

/-- The characters that may follow an element or a field end a number. -/
theorem endsNumber_cons {c : UInt8} (h : c = 44 ∨ c = 93 ∨ c = 125) (rest : Bytes) :
    EndsNumber (c :: rest) := by
  intro d hd st
  obtain rfl : c = d := by simpa using hd
  rcases h with rfl | rfl | rfl <;> rfl

/-- The parser takes a whole number, up to where it ends. -/
theorem decodeNumber_of_steps {st st' : NumberState} {s rest : Bytes}
    (hs : st.steps s = some st') (hst' : st'.accepts = true) (hrest : EndsNumber rest) :
    decodeNumber st (s ++ rest) = some (s, rest) := by
  induction s generalizing st with
  | nil =>
    cases hs
    cases rest with
    | nil => simp [decodeNumber, hst']
    | cons c rest => simp [decodeNumber, hrest c rfl st', hst']
  | cons c s ih =>
    simp only [List.cons_append, steps, decodeNumber] at hs ⊢
    cases hstep : st.step c with
    | none => simp [hstep] at hs
    | some st₁ =>
      simp only [hstep, Option.bind_some] at hs ⊢
      split at hs
      · cases hs
      · next hne => rw [if_neg hne, ih hs]; rfl

/-- A number starts with a digit or a minus sign. -/
theorem number_head {s : Bytes} {st : NumberState} (h : minus.steps s = some st)
    (hst : st.accepts = true) : ∃ c s', s = c :: s' ∧ (c = 45 ∨ isDigit c = true) := by
  cases s with
  | nil => cases h; cases hst
  | cons c s =>
    refine ⟨c, s, rfl, ?_⟩
    simp only [steps, step] at h
    simp only [isDigit, Bool.and_eq_true, decide_eq_true_eq]
    have hdigit : ∀ {a : UInt8}, 49 ≤ a → 48 ≤ a := fun ha => le_trans (by decide) ha
    split_ifs at h with h₁ h₂ h₃ h₄ h₅ h₆ <;> simp_all

/-! ## Values -/

/-- The characters with which a printed value may start. -/
def startsValue (c : UInt8) : Bool :=
  [34, 45, 91, 102, 110, 116, 123].contains c || isDigit c

theorem wsSkip_of_startsValue {c : UInt8} (hc : startsValue c = true) (s : Bytes) :
    wsSkip (c :: s) = c :: s := by
  have hne : ¬(c = 32 ∨ c = 9 ∨ c = 13 ∨ c = 10) := by
    rintro (rfl | rfl | rfl | rfl) <;> exact absurd hc (by decide)
  simp [wsSkip, hne]

theorem wsSkip_of_ne {c : UInt8} (h : c ≠ 32 ∧ c ≠ 9 ∧ c ≠ 13 ∧ c ≠ 10) (s : Bytes) :
    wsSkip (c :: s) = c :: s := by
  simp [wsSkip, h]

/-- A value that starts like a number is decoded as one. -/
theorem decodeValue_number {c : UInt8} (hc : c = 45 ∨ isDigit c = true) (fuel : ℕ) (s : Bytes) :
    decodeValue (fuel + 1) (c :: s) =
      (decodeNumber .minus (c :: s)).map fun p => (.number p.1, p.2) := by
  have hne : c ≠ 91 ∧ c ≠ 123 ∧ c ≠ 34 ∧ c ≠ 116 ∧ c ≠ 102 ∧ c ≠ 110 := by
    refine ⟨?_, ?_, ?_, ?_, ?_, ?_⟩ <;> rintro rfl <;> exact absurd hc (by decide)
  simp [decodeValue, hne]

private theorem zero_not_mem_of_steps {st st' : NumberState} {s : Bytes}
    (h : st.steps s = some st') : (0 : UInt8) ∉ s := by
  induction s generalizing st with
  | nil => simp
  | cons c s ih =>
    simp only [steps] at h
    cases hstep : st.step c with
    | none => simp [hstep] at h
    | some st₁ =>
      simp only [hstep, Option.bind_some] at h
      split at h
      · cases h
      · have hc : c ≠ 0 := by
          rintro rfl
          cases hstep
        simp [hc.symm, ih h]

private theorem zero_not_mem_hexDigit : ∀ n < 16, hexDigit n ≠ 0 := by decide

theorem zero_not_mem_escape (s : Bytes) : (0 : UInt8) ∉ escape s := by
  simp only [escape, List.mem_flatMap, not_exists, not_and]
  intro c _
  unfold escapeChar
  split_ifs with h₁ h₂ h₃ h₄ h₅ h₆ h₇ h₈
  all_goals try decide
  · have hlt := UInt8.lt_iff_toNat_lt.mp h₈
    have hhi := zero_not_mem_hexDigit (c.toNat / 16) (by simp at hlt; omega)
    have hlo := zero_not_mem_hexDigit (c.toNat % 16) (by omega)
    simp [hhi.symm, hlo.symm]
  · rintro h
    exact h₈ (by rw [← List.mem_singleton.mp h]; decide)

theorem zero_not_mem_dumpString (s : Bytes) : (0 : UInt8) ∉ dumpString s := by
  simp [dumpString, zero_not_mem_escape]

theorem zero_not_mem_joinComma {ts : List Bytes} (h : ∀ t ∈ ts, (0 : UInt8) ∉ t) :
    (0 : UInt8) ∉ joinComma ts := by
  induction ts with
  | nil => simp [joinComma]
  | cons t ts ih =>
    obtain ⟨ht, hts⟩ := List.forall_mem_cons.mp h
    cases ts with
    | nil => exact ht
    | cons t' ts => simp [joinComma, ht, ih hts]

section

variable [HashOrder]

/-- A printed value is not empty and starts with none of the separators. -/
theorem dump_head (w : WValue) : ∃ c s, dump w = c :: s ∧ startsValue c = true := by
  cases w with
  | null => exact ⟨_, _, rfl, rfl⟩
  | bool b => cases b <;> exact ⟨_, _, rfl, rfl⟩
  | number d =>
    obtain ⟨st, hst, hacc⟩ := steps_printG10 d
    obtain ⟨c, s, heq, rfl | hc⟩ := number_head hst hacc
    · exact ⟨_, _, heq, rfl⟩
    · exact ⟨c, s, heq, by simp [startsValue, hc]⟩
  | string s => exact ⟨_, _, rfl, rfl⟩
  | list l => exact ⟨_, _, rfl, rfl⟩
  | object o => exact ⟨_, _, rfl, rfl⟩

/-- With enough fuel the parser takes a printed value and nothing more. -/
def Rereads (w : WValue) : Prop :=
  ∀ fuel rest, 2 * (dump w).length ≤ fuel → EndsNumber rest →
    decodeValue fuel (dump w ++ rest) = some (reread w, rest)

/-- The loop over the elements takes the printed elements, if each of them is reread. -/
theorem decodeList_joinComma {w : WValue} {l : List WValue} (hl : ∀ x ∈ w :: l, Rereads x)
    {fuel : ℕ} (hfuel : 2 * (joinComma ((w :: l).map dump)).length < fuel) (rest : Bytes) :
    decodeList fuel (joinComma ((w :: l).map dump) ++ 93 :: rest) =
      some ((w :: l).map reread, rest) := by
  induction l generalizing w fuel with
  | nil =>
    obtain ⟨fuel, rfl⟩ := Nat.exists_eq_add_of_lt hfuel
    simp only [List.map_cons, List.map_nil, joinComma, decodeList] at hfuel ⊢
    rw [hl w List.mem_cons_self _ _ (by omega) (endsNumber_cons (by decide) _)]
    simp [wsSkip]
  | cons x l ih =>
    obtain ⟨fuel, rfl⟩ := Nat.exists_eq_add_of_lt hfuel
    have htail : ∀ fuel, 2 * (joinComma ((x :: l).map dump)).length < fuel →
        decodeList fuel (joinComma ((x :: l).map dump) ++ 93 :: rest) =
          some ((x :: l).map reread, rest) := fun _ hfuel =>
      ih (fun y hy => hl y (List.mem_cons_of_mem w hy)) hfuel
    obtain ⟨c, s, heq, hc⟩ := dump_head x
    have hskip : ∀ t, wsSkip (joinComma ((x :: l).map dump) ++ t) =
        joinComma ((x :: l).map dump) ++ t := by
      intro t
      cases l <;> simpa [joinComma, heq] using wsSkip_of_startsValue hc _
    simp only [List.map_cons, joinComma, decodeList, List.length_append, List.length_cons,
      List.append_assoc, List.cons_append] at hfuel htail hskip ⊢
    rw [hl w List.mem_cons_self _ _ (by omega) (endsNumber_cons (by decide) _),
      Option.bind_some]
    simp only [wsSkip_of_ne (c := 44) (by decide), hskip]
    rw [htail _ (by omega)]
    rfl

/-- The loop over the fields takes the printed fields, if each of their values is reread. -/
theorem decodeObject_joinComma {e : Bytes × WValue} {o : List (Bytes × WValue)}
    (ho : ∀ x ∈ e :: o, Rereads x.2) {fuel : ℕ}
    (hfuel : 2 * (joinComma ((e :: o).map fun x => dumpField (x.1, dump x.2))).length < fuel)
    (rest : Bytes) :
    decodeObject fuel (joinComma ((e :: o).map fun x => dumpField (x.1, dump x.2)) ++ 125 :: rest) =
      some ((e :: o).map (Prod.map id reread), rest) := by
  have hskip : ∀ x s, wsSkip (dump x ++ s) = dump x ++ s := by
    intro x s
    obtain ⟨c, t, heq, hc⟩ := dump_head x
    simpa [heq] using wsSkip_of_startsValue hc _
  induction o generalizing e fuel with
  | nil =>
    obtain ⟨fuel, rfl⟩ := Nat.exists_eq_add_of_lt hfuel
    simp only [List.map_cons, List.map_nil, joinComma, decodeObject, dumpField, dumpString,
      List.cons_append, List.append_assoc, List.nil_append, List.length_cons,
      List.length_append] at hfuel ⊢
    rw [decodeString_escape, Option.bind_some]
    simp only [wsSkip_of_ne (c := 58) (by decide), hskip]
    rw [ho e List.mem_cons_self _ _ (by omega) (endsNumber_cons (by decide) _)]
    simp [wsSkip, Prod.map]
  | cons x o ih =>
    obtain ⟨fuel, rfl⟩ := Nat.exists_eq_add_of_lt hfuel
    have htail : ∀ fuel,
        2 * (joinComma ((x :: o).map fun x => dumpField (x.1, dump x.2))).length < fuel →
        decodeObject fuel
            (joinComma ((x :: o).map fun x => dumpField (x.1, dump x.2)) ++ 125 :: rest) =
          some ((x :: o).map (Prod.map id reread), rest) := fun _ hfuel =>
      ih (fun y hy => ho y (List.mem_cons_of_mem e hy)) hfuel
    have hquote : ∀ t, wsSkip
        (joinComma ((x :: o).map fun x => dumpField (x.1, dump x.2)) ++ t) =
        joinComma ((x :: o).map fun x => dumpField (x.1, dump x.2)) ++ t := by
      intro t
      cases o <;> exact wsSkip_of_ne (by decide) _
    simp only [List.map_cons, joinComma, decodeObject, dumpField, dumpString, List.length_append,
      List.length_cons, List.append_assoc, List.cons_append, List.nil_append]
      at hfuel htail hquote ⊢
    rw [decodeString_escape, Option.bind_some]
    simp only [wsSkip_of_ne (c := 58) (by decide), hskip]
    rw [ho e List.mem_cons_self _ _ (by omega) (endsNumber_cons (by decide) _),
      Option.bind_some]
    simp only [wsSkip_of_ne (c := 44) (by decide), hquote]
    rw [htail _ (by omega)]
    simp [Prod.map]

/-- Every printed value is reread. -/
theorem rereads (w : WValue) : Rereads w := by
  induction w using WValue.induct with
  | null =>
    intro fuel rest hfuel _
    obtain ⟨fuel, rfl⟩ :=
      Nat.exists_eq_add_of_le' (show 1 ≤ fuel by simp [dump, ascii] at hfuel; omega)
    rfl
  | bool b =>
    intro fuel rest hfuel _
    cases b <;>
    · obtain ⟨fuel, rfl⟩ :=
        Nat.exists_eq_add_of_le' (show 1 ≤ fuel by simp [dump, ascii] at hfuel; omega)
      rfl
  | number d =>
    intro fuel rest hfuel hrest
    obtain ⟨st, hst, hacc⟩ := steps_printG10 d
    obtain ⟨c, s, heq, hc⟩ := number_head hst hacc
    have hnumber := decodeNumber_of_steps hst hacc hrest
    simp only [dump, reread, heq, List.length_cons] at hfuel hnumber ⊢
    obtain ⟨fuel, rfl⟩ := Nat.exists_eq_add_of_le' (show 1 ≤ fuel by omega)
    rw [List.cons_append] at hnumber ⊢
    rw [decodeValue_number hc, hnumber]
    rfl
  | string s =>
    intro fuel rest hfuel _
    simp only [dump, dumpString, List.length_cons] at hfuel
    obtain ⟨fuel, rfl⟩ := Nat.exists_eq_add_of_le' (show 1 ≤ fuel by omega)
    simp [dump, reread, dumpString, decodeValue, decodeString_escape]
  | list l ih =>
    intro fuel rest hfuel _
    rw [dump_list, List.length_cons, List.length_append, List.length_singleton] at hfuel
    obtain ⟨fuel, rfl⟩ := Nat.exists_eq_add_of_le' (show 1 ≤ fuel by omega)
    rw [dump_list, reread_list]
    cases l with
    | nil => simp [joinComma, decodeValue, wsSkip]
    | cons w l =>
      have hlist := decodeList_joinComma ih (show _ < fuel by omega) rest
      obtain ⟨c, s, heq, hc⟩ := dump_head w
      have hjoin : ∃ t, joinComma ((w :: l).map dump) ++ 93 :: rest = c :: t := by
        cases l <;> simp [joinComma, heq]
      obtain ⟨t, ht⟩ := hjoin
      have hne : c ≠ 93 := by rintro rfl; exact absurd hc (by decide)
      rw [List.cons_append, List.append_assoc, List.singleton_append]
      rw [ht] at hlist ⊢
      simp only [decodeValue, wsSkip_of_startsValue hc]
      split
      · next h => exact absurd (List.cons.inj h).1 hne
      · next h => rw [hlist]; rfl
  | object o ih =>
    intro fuel rest hfuel _
    rw [dump_object, List.length_cons, List.length_append, List.length_singleton] at hfuel
    obtain ⟨fuel, rfl⟩ := Nat.exists_eq_add_of_le' (show 1 ≤ fuel by omega)
    rw [dump_object, reread_object]
    have ih' : ∀ e ∈ HashOrder.arrange o, Rereads e.2 := fun e he =>
      ih e ((HashOrder.perm o).subset he)
    generalize HashOrder.arrange o = o' at ih' hfuel ⊢
    cases o' with
    | nil => simp [joinComma, decodeValue, wsSkip]
    | cons e o' =>
      have hobject := decodeObject_joinComma ih' (show _ < fuel by omega) rest
      have hjoin : ∃ t, joinComma ((e :: o').map fun x => dumpField (x.1, dump x.2)) ++
          125 :: rest = 34 :: t := by
        cases o' <;> simp [joinComma, dumpField, dumpString]
      obtain ⟨t, ht⟩ := hjoin
      rw [List.cons_append, List.append_assoc, List.singleton_append]
      rw [ht] at hobject ⊢
      simp only [decodeValue, wsSkip_of_ne (c := 34) (by decide)]
      split
      · next h => exact absurd (List.cons.inj h).1 (by decide)
      · next h => rw [hobject]; rfl

/-- No printed value holds a zero byte, so the parser reads all of it. -/
theorem zero_not_mem_dump (w : WValue) : (0 : UInt8) ∉ dump w := by
  induction w using WValue.induct with
  | null => simp [dump, ascii]
  | bool b => cases b <;> simp [dump, ascii]
  | number d =>
    obtain ⟨st, hst, -⟩ := steps_printG10 d
    exact zero_not_mem_of_steps hst
  | string s => exact zero_not_mem_dumpString s
  | list l ih =>
    have h : (0 : UInt8) ∉ joinComma (l.map dump) := zero_not_mem_joinComma (by simpa using ih)
    simp [dump_list, h]
  | object o ih =>
    have h : (0 : UInt8) ∉
        joinComma ((HashOrder.arrange o).map fun e => dumpField (e.1, dump e.2)) := by
      refine zero_not_mem_joinComma fun t ht => ?_
      obtain ⟨e, he, rfl⟩ := List.mem_map.mp ht
      have hvalue := ih e ((HashOrder.perm o).subset he)
      simp [dumpField, zero_not_mem_dumpString, hvalue]
    simp [dump_object, h]

/-- Loading a printed value gives the value reread. -/
theorem load_dump (w : WValue) : load (dump w) = some (reread w) := by
  obtain ⟨c, s, heq, hc⟩ := dump_head w
  have hskip : wsSkip (dump w) = dump w := by rw [heq, wsSkip_of_startsValue hc]
  have h := rereads w (2 * (dump w).length + 2) [] (by omega) endsNumber_nil
  rw [List.append_nil] at h
  rw [load, cstr_eq_self (zero_not_mem_dump w), parse, hskip, h]
  simp [wsSkip]

theorem isJson_dump (w : WValue) : IsJson (dump w) := by
  rw [IsJson, load_dump]
  rfl

end

/-! ## Decimal texts -/

/-- A text that the parser takes as a number is one. -/
theorem load_number {s : Bytes} {st : NumberState} (h : minus.steps s = some st)
    (hst : st.accepts = true) : load s = some (.number s) := by
  obtain ⟨c, t, rfl, hc⟩ := number_head h hst
  have hstart : startsValue c = true := by
    rcases hc with rfl | hc
    · decide
    · simp [startsValue, hc]
  have hnumber := decodeNumber_of_steps h hst endsNumber_nil
  rw [List.append_nil] at hnumber
  rw [load, cstr_eq_self (zero_not_mem_of_steps h), parse, wsSkip_of_startsValue hstart,
    decodeValue_number hc, hnumber]
  rfl

theorem steps_decimal {st : NumberState} (hst : st = minus ∨ st = afterMinus) (n : ℕ) :
    ∃ st', st.steps (decimal n) = some st' ∧ st'.accepts = true := by
  rcases Nat.eq_zero_or_pos n with rfl | hn
  · exact ⟨zeroFirst, by rcases hst with rfl | rfl <;> rfl, rfl⟩
  · obtain ⟨c, s, heq, hc, hs⟩ := decimal_head hn
    refine ⟨digits, ?_, rfl⟩
    rw [heq, steps_first hst hc]
    exact steps_digits (Or.inl rfl) hs

/-- The decimal text of a number is a number for the parser. -/
theorem steps_toString (z : ℤ) : ∃ st, minus.steps (toString z) = some st ∧ st.accepts = true := by
  unfold toString
  split
  · rw [show minus.steps (45 :: decimal z.natAbs) = afterMinus.steps (decimal z.natAbs) from rfl]
    exact steps_decimal (Or.inr rfl) _
  · exact steps_decimal (Or.inl rfl) _

theorem isJson_toString (z : ℤ) : IsJson (toString z) := by
  obtain ⟨st, hst, hacc⟩ := steps_toString z
  rw [IsJson, load_number hst hacc]
  rfl

end Quarks
