import Quarks.Json.RoundTrip
import Mathlib.Data.Int.Log
import Mathlib.Data.Rat.Floor

/-!
# The numbers that tokens stand for

A number token has an exact decimal value, and so has a double. Reading a whole number
below `2 ^ 53` is exact; printing keeps a number exactly if ten significant digits are
enough to write it.
-/

namespace Quarks

/-! ## The value of a token -/

/-- The factor that a sign stands for. -/
def sign (negative : Bool) : ℚ := if negative then -1 else 1

/-- Split off a minus sign. -/
def splitSign : Bytes → Bool × Bytes
  | 45 :: r => (true, r)
  | r => (false, r)

/-- Split off a point and the digits behind it. -/
def splitFraction : Bytes → Bytes × Bytes
  | 46 :: r => spanDigits r
  | r => ([], r)

/-- The sign, the digits and the decimal exponent that `boost::lexical_cast` reads. -/
def decimalParts (token : Bytes) : Option (Bool × ℕ × ℤ) :=
  let (negative, s) := splitSign token
  let (whole, s) := spanDigits s
  let (frac, s) := splitFraction s
  if whole = [] ∧ frac = [] then none
  else (exponentPart s).map fun e => (negative, natOfDigits (whole ++ frac), e - frac.length)

/-- The exact value of a number token. -/
def tokenValue (token : Bytes) : Option ℚ :=
  (decimalParts token).map fun p => sign p.1 * (p.2.1 * 10 ^ p.2.2)

/-- The value of a token without a sign. -/
theorem tokenValue_of_parts {token : Bytes} {n : ℕ} {e : ℤ}
    (h : decimalParts token = some (false, n, e)) : tokenValue token = some ((n : ℚ) * 10 ^ e) := by
  rw [tokenValue, h, Option.map_some, sign, if_neg Bool.false_ne_true, one_mul]

namespace Double

/-- The magnitude of a double. -/
def magnitude (d : Double) : ℚ := d.mantissa * 2 ^ d.exponent

/-- The exact value of a double. -/
def value (d : Double) : ℚ := sign d.negative * d.magnitude

end Double

/-- A token is read as the double nearest to its value. -/
theorem lexicalCastDouble_eq (token : Bytes) :
    lexicalCastDouble token = (decimalParts token).bind fun p =>
      Double.ofFraction p.1 (p.2.1 * (powerFraction 10 p.2.2).1) (powerFraction 10 p.2.2).2 := by
  unfold lexicalCastDouble decimalParts
  simp only
  rw [apply_ite (Option.bind · _), Option.bind_map]
  rfl

theorem powerFraction_value {base : ℕ} (hb : 0 < base) (e : ℤ) :
    ((powerFraction base e).1 : ℚ) / (powerFraction base e).2 = (base : ℚ) ^ e := by
  have hne : (base : ℚ) ≠ 0 := by exact_mod_cast hb.ne'
  unfold powerFraction
  split
  · next h =>
    obtain ⟨n, rfl⟩ := Int.eq_ofNat_of_zero_le h
    simp
  · next h =>
    obtain ⟨n, hn⟩ := Int.eq_ofNat_of_zero_le (show 0 ≤ -e by omega)
    obtain rfl : e = -(n : ℤ) := by omega
    simp

/-! ## Rounding to a natural number -/

section

variable {num den n : ℕ}

/-- Rounding does not go above a natural number that is not exceeded. -/
theorem nearest_le (hden : 0 < den) (h : (num : ℚ) / den ≤ n) : nearest num den ≤ n := by
  have hd : (0 : ℚ) < den := by exact_mod_cast hden
  rw [div_le_iff₀ hd] at h
  have hle : num ≤ n * den := by exact_mod_cast h
  have hq : num / den ≤ n := Nat.div_le_of_le_mul (by rwa [Nat.mul_comm])
  unfold nearest
  simp only
  split
  · next hround =>
    -- a fraction is left over, so the quotient is below `n`
    have hmod := Nat.div_add_mod num den
    have hpos : 0 < num % den := by omega
    by_contra hlt
    have heq : num / den = n := by omega
    rw [heq, Nat.mul_comm] at hmod
    omega
  · exact hq

/-- Rounding does not go below a natural number that is reached. -/
theorem le_nearest (hden : 0 < den) (h : (n : ℚ) ≤ (num : ℚ) / den) : n ≤ nearest num den := by
  have hd : (0 : ℚ) < den := by exact_mod_cast hden
  rw [le_div_iff₀ hd] at h
  have hle : n * den ≤ num := by exact_mod_cast h
  have hq : n ≤ num / den := (Nat.le_div_iff_mul_le hden).mpr hle
  unfold nearest
  simp only
  split <;> omega

/-- The fraction that is rounded by `scaled`. -/
theorem scaled_value {base : ℕ} (hb : 0 < base) (e : ℤ) :
    ((num * (powerFraction base e).2 : ℕ) : ℚ) / ((den * (powerFraction base e).1 : ℕ) : ℚ) =
      num / den / (base : ℚ) ^ e := by
  rw [← powerFraction_value hb e, div_div_div_eq]
  push_cast
  rfl

/-- A fraction that is a multiple of the power is scaled exactly. -/
theorem scaled_eq {base : ℕ} (hb : 0 < base) (hden : 0 < den) {e : ℤ}
    (h : (num : ℚ) / den / (base : ℚ) ^ e = n) : scaled num den base e = n := by
  have hpos := Nat.mul_pos hden (powerFraction_pos hb e).1
  rw [← scaled_value hb] at h
  exact le_antisymm (nearest_le hpos h.le) (le_nearest hpos h.ge)

/-- A power of a base compared with a fraction. -/
theorem powerFraction_le {base : ℕ} (hb : 0 < base) (hden : 0 < den) (e : ℤ) :
    den * (powerFraction base e).1 ≤ num * (powerFraction base e).2 ↔
      (base : ℚ) ^ e ≤ (num : ℚ) / den := by
  have hd : (0 : ℚ) < den := by exact_mod_cast hden
  have hp : (0 : ℚ) < (powerFraction base e).2 := by exact_mod_cast (powerFraction_pos hb e).2
  rw [← powerFraction_value hb e, div_le_div_iff₀ hp hd, Nat.mul_comm]
  exact_mod_cast Iff.rfl

/-- The decimal exponent is not too small: the fraction is below the next power of ten. -/
theorem lt_decimalExponent_succ (hden : 0 < den) :
    (num : ℚ) / den < 10 ^ (decimalExponent num den + 1) := by
  have hd : (0 : ℚ) < den := by exact_mod_cast hden
  have hn₁ : (num : ℚ) < 10 ^ ((decimal num).length : ℤ) := by
    exact_mod_cast lt_pow_length_decimal num
  have hd₁ : (10 : ℚ) ^ ((decimal den).length : ℤ) ≤ 10 * den := by
    exact_mod_cast pow_length_decimal_le hden
  have hcompare := @powerFraction_le num den 10 (by decide) hden
    ((decimal num).length - (decimal den).length)
  rw [Nat.cast_ofNat] at hcompare
  simp only [decimalExponent]
  split
  · rw [div_lt_iff₀ hd]
    calc (num : ℚ) < 10 ^ ((decimal num).length : ℤ) := hn₁
      _ = 10 ^ ((decimal num).length - (decimal den).length : ℤ) *
          10 ^ ((decimal den).length : ℤ) := by
        rw [← zpow_add₀ (by norm_num), sub_add_cancel]
      _ ≤ 10 ^ ((decimal num).length - (decimal den).length : ℤ) * (10 * den) :=
        mul_le_mul_of_nonneg_left hd₁ (zpow_nonneg (by norm_num) _)
      _ = 10 ^ ((decimal num).length - (decimal den).length + 1 : ℤ) * den := by
        rw [zpow_add_one₀ (by norm_num), mul_assoc]
  · next hnot =>
    rw [hcompare, not_le] at hnot
    rwa [sub_add_cancel]

/-- The decimal exponent is the integral part of the logarithm. -/
theorem decimalExponent_eq_log (hnum : 0 < num) (hden : 0 < den) :
    decimalExponent num den = Int.log 10 ((num : ℚ) / den) := by
  have hpos : (0 : ℚ) < num / den := by
    have hn : (0 : ℚ) < num := by exact_mod_cast hnum
    exact div_pos hn (by exact_mod_cast hden)
  have hlower := (powerFraction_le (show 0 < 10 by decide) hden _).mp
    (@decimalExponent_le num den hnum)
  refine le_antisymm ((Int.zpow_le_iff_le_log (by decide) hpos).mp hlower) ?_
  refine Int.lt_add_one_iff.mp ((Int.lt_zpow_iff_log_lt (by decide) hpos).mp ?_)
  exact_mod_cast lt_decimalExponent_succ hden

/-- Ten significant digits: a number between one and ten billion. -/
theorem scaled_decimalExponent_bounds (hnum : 0 < num) (hden : 0 < den) :
    10 ^ 9 ≤ scaled num den 10 (decimalExponent num den - 9) ∧
      scaled num den 10 (decimalExponent num den - 9) ≤ 10 ^ 10 := by
  have hpos := Nat.mul_pos hden
    (powerFraction_pos (show 0 < 10 by decide) (decimalExponent num den - 9)).1
  have hlower := (powerFraction_le (show 0 < 10 by decide) hden _).mp
    (@decimalExponent_le num den hnum)
  have hupper : (num : ℚ) / den < 10 ^ (decimalExponent num den + 1) :=
    lt_decimalExponent_succ hden
  have hp : (0 : ℚ) < 10 ^ (decimalExponent num den - 9) := zpow_pos (by norm_num) _
  constructor
  · refine le_nearest hpos ?_
    rw [scaled_value (by decide), Nat.cast_ofNat, le_div_iff₀ hp]
    calc ((10 ^ 9 : ℕ) : ℚ) * 10 ^ (decimalExponent num den - 9)
        = 10 ^ decimalExponent num den := by
          rw [Nat.cast_pow, Nat.cast_ofNat, ← zpow_natCast, ← zpow_add₀ (by norm_num)]
          congr 1
          omega
      _ ≤ num / den := by exact_mod_cast hlower
  · refine nearest_le hpos ?_
    rw [scaled_value (by decide), Nat.cast_ofNat, div_le_iff₀ hp]
    calc (num : ℚ) / den ≤ 10 ^ (decimalExponent num den + 1) := hupper.le
      _ = ((10 ^ 10 : ℕ) : ℚ) * 10 ^ (decimalExponent num den - 9) := by
          rw [Nat.cast_pow, Nat.cast_ofNat, ← zpow_natCast, ← zpow_add₀ (by norm_num)]
          congr 1
          omega

end

/-! ## The value of a printed text -/

/-- Digits up to a character that is not one. -/
theorem spanDigits_append {s rest : Bytes} (hs : ∀ c ∈ s, isDigit c = true)
    (hrest : ∀ c ∈ rest.head?, isDigit c = false) : spanDigits (s ++ rest) = (s, rest) := by
  have hnone : rest.takeWhile isDigit = [] ∧ rest.dropWhile isDigit = rest := by
    cases rest with
    | nil => exact ⟨rfl, rfl⟩
    | cons c rest =>
      have hc : isDigit c = false := hrest c rfl
      exact ⟨List.takeWhile_cons_of_neg (by simp [hc]), List.dropWhile_cons_of_neg (by simp [hc])⟩
  rw [spanDigits, List.span_eq_takeWhile_dropWhile, List.takeWhile_append_of_pos hs,
    List.dropWhile_append_of_pos hs, hnone.1, hnone.2, List.append_nil]

/-- The parts of a text that is made of a sign, digits, a fraction and an exponent. -/
theorem decimalParts_text {negative : Bool} {whole frac tail : Bytes} {e : ℤ}
    (hne : whole ≠ []) (hwhole : ∀ c ∈ whole, isDigit c = true)
    (hfrac : ∀ c ∈ frac, isDigit c = true)
    (htail : ∀ c ∈ tail.head?, isDigit c = false ∧ c ≠ 46) (he : exponentPart tail = some e) :
    decimalParts ((if negative then [45] else []) ++ (whole ++ fraction frac ++ tail)) =
      some (negative, natOfDigits (whole ++ frac), e - frac.length) := by
  obtain ⟨c, s, rfl⟩ := List.exists_cons_of_ne_nil hne
  have hc : c ≠ 45 := by
    rintro rfl
    exact absurd (hwhole 45 List.mem_cons_self) (by decide)
  have hspan : spanDigits (c :: s ++ fraction frac ++ tail) = (c :: s, fraction frac ++ tail) := by
    rw [List.append_assoc]
    refine spanDigits_append hwhole fun d hd => ?_
    unfold fraction at hd
    split at hd
    · exact (htail d hd).1
    · cases hd
      rfl
  have hpoint : splitFraction (fraction frac ++ tail) = (frac, tail) := by
    unfold fraction
    split_ifs with hnil
    · subst hnil
      cases tail with
      | nil => rfl
      | cons d tail => simp [splitFraction, (htail d rfl).2]
    · exact spanDigits_append hfrac fun d hd => (htail d hd).1
  have hsign : splitSign ((if negative then [45] else []) ++
      (c :: s ++ fraction frac ++ tail)) = (negative, c :: s ++ fraction frac ++ tail) := by
    cases negative with
    | true => rfl
    | false => simp [splitSign, hc]
  simp only [decimalParts, hsign, hspan, hpoint, he]
  rw [if_neg fun h => hne h.1, Option.map_some]

theorem natOfDigits_append_replicate (s : Bytes) (k : ℕ) :
    natOfDigits (s ++ List.replicate k 48) = natOfDigits s * 10 ^ k := by
  induction k with
  | zero => simp
  | succ k ih =>
    rw [List.replicate_succ', ← List.append_assoc, natOfDigits_append_singleton, ih, pow_succ]
    have hzero : digitVal 48 = 0 := rfl
    rw [hzero, Nat.add_zero, Nat.mul_comm, Nat.mul_assoc]

theorem natOfDigits_replicate_append (k : ℕ) (s : Bytes) :
    natOfDigits (List.replicate k 48 ++ s) = natOfDigits s := by
  induction k with
  | zero => rfl
  | succ k ih => exact ih

/-- What `stripZeros` removes are zeros. -/
theorem exists_stripZeros (s : Bytes) : ∃ k, s = stripZeros s ++ List.replicate k 48 := by
  obtain ⟨t, ht⟩ : ∃ t, s.rtakeWhile (· = 48) = t := ⟨_, rfl⟩
  have hzeros : t = List.replicate t.length 48 := by
    refine List.eq_replicate_of_mem fun c hc => ?_
    rw [← ht] at hc
    have hzero := List.mem_rtakeWhile_imp hc
    exact of_decide_eq_true hzero
  refine ⟨t.length, ?_⟩
  rw [← hzeros, ← ht, stripZeros, List.rdropWhile_append_rtakeWhile]

/-- Zeros at the end of a fraction do not change the number. -/
theorem natOfDigits_stripZeros (a b : Bytes) :
    (natOfDigits (a ++ stripZeros b) : ℚ) * 10 ^ (-((stripZeros b).length : ℤ)) =
      natOfDigits (a ++ b) * 10 ^ (-(b.length : ℤ)) := by
  obtain ⟨k, hk⟩ := exists_stripZeros b
  have hlength : (b.length : ℤ) = (stripZeros b).length + k := by
    have h := congrArg List.length hk
    rw [List.length_append, List.length_replicate] at h
    exact_mod_cast h
  have hdigits : natOfDigits (a ++ b) = natOfDigits (a ++ stripZeros b) * 10 ^ k := by
    rw [← natOfDigits_append_replicate, List.append_assoc, ← hk]
  rw [hlength, hdigits, Nat.cast_mul, Nat.cast_pow, Nat.cast_ofNat, mul_assoc, ← zpow_natCast,
    ← zpow_add₀ (by norm_num)]
  congr 2
  omega

/-- A printed exponent is read back. -/
theorem exponentPart_printExponent (x : ℤ) : exponentPart (printExponent x) = some x := by
  generalize hs : (if x.natAbs < 10 then 48 :: decimal x.natAbs else decimal x.natAbs) = s
  have hvalue : natOfDigits s = x.natAbs := by
    rw [← hs]
    split
    · exact (natOfDigits_replicate_append 1 _).trans (natOfDigits_decimal _)
    · exact natOfDigits_decimal _
  have hdigits : ∀ c ∈ s, isDigit c = true := by
    intro c hc
    rw [← hs] at hc
    split at hc
    · rcases List.mem_cons.mp hc with rfl | hc
      · rfl
      · exact isDigit_of_mem_decimal hc
    · exact isDigit_of_mem_decimal hc
  have hne : s ≠ [] := by
    rw [← hs]
    split
    · exact List.cons_ne_nil _ _
    · exact decimal_ne_nil _
  have hall : s ≠ [] ∧ s.all isDigit = true := ⟨hne, List.all_eq_true.mpr hdigits⟩
  rw [printExponent, hs]
  by_cases hneg : x < 0
  · simp only [exponentPart, if_pos hneg, hvalue]
    rw [if_pos (Or.inl trivial), if_pos hall]
    change some (-(x.natAbs : ℤ)) = some x
    congr 1
    omega
  · simp only [exponentPart, if_neg hneg, hvalue]
    rw [if_pos (Or.inl trivial), if_pos hall]
    change some (x.natAbs : ℤ) = some x
    congr 1
    omega

/-- A number of ten digits. -/
theorem length_decimal_ten {q : ℕ} (h : 10 ^ 9 ≤ q ∧ q < 10 ^ 10) : (decimal q).length = 10 := by
  have hupper := lt_pow_length_decimal q
  have hlower := pow_length_decimal_le (show 0 < q by omega)
  by_contra hne
  rcases Nat.lt_or_gt_of_ne hne with hlt | hgt
  · have hpow : 10 ^ (decimal q).length ≤ 10 ^ 9 := Nat.pow_le_pow_right (by decide) (by omega)
    omega
  · have hpow : 10 ^ 11 ≤ 10 ^ (decimal q).length := Nat.pow_le_pow_right (by decide) (by omega)
    omega

/-- Ten digits with the point behind the first ones, and an exponent. -/
theorem tokenValue_digits {negative : Bool} {q n : ℕ} {tail : Bytes} {e : ℤ}
    (hq : 10 ^ 9 ≤ q ∧ q < 10 ^ 10) (hn : n < 10)
    (htail : ∀ c ∈ tail.head?, isDigit c = false ∧ c ≠ 46) (he : exponentPart tail = some e) :
    tokenValue ((if negative then [45] else []) ++ ((decimal q).take (n + 1) ++
        fraction (stripZeros ((decimal q).drop (n + 1))) ++ tail)) =
      some (sign negative * (q * 10 ^ (e + n - 9))) := by
  have hlen := length_decimal_ten hq
  have hstrip := natOfDigits_stripZeros ((decimal q).take (n + 1)) ((decimal q).drop (n + 1))
  rw [List.take_append_drop, natOfDigits_decimal, List.length_drop, hlen] at hstrip
  rw [tokenValue, decimalParts_text ?_ ?_ ?_ htail he, Option.map_some]
  · congr 2
    rw [sub_eq_add_neg, zpow_add₀ (by norm_num), mul_left_comm, hstrip, mul_left_comm,
      ← zpow_add₀ (by norm_num)]
    congr 2
    omega
  · rw [← List.length_pos_iff, List.length_take, hlen]
    omega
  · exact fun c hc => isDigit_of_mem_decimal (List.mem_of_mem_take hc)
  · exact fun c hc => isDigit_of_mem_decimal
      (List.mem_of_mem_drop ((List.rdropWhile_prefix _ _).subset hc))

/-- Ten digits behind zeros. -/
theorem tokenValue_zeros {negative : Bool} {q : ℕ} (hq : 10 ^ 9 ≤ q ∧ q < 10 ^ 10) (n : ℕ) :
    tokenValue ((if negative then [45] else []) ++
        ([48, 46] ++ List.replicate n 48 ++ stripZeros (decimal q))) =
      some (sign negative * (q * 10 ^ (-(n : ℤ) - 10))) := by
  have hlen := length_decimal_ten hq
  have hstrip := natOfDigits_stripZeros [] (decimal q)
  rw [List.nil_append, List.nil_append, natOfDigits_decimal, hlen] at hstrip
  have hne : List.replicate n 48 ++ stripZeros (decimal q) ≠ [] := by
    intro h
    rw [(List.append_eq_nil_iff.mp h).2] at hstrip
    have hpos : (0 : ℚ) < q * 10 ^ (-((10 : ℕ) : ℤ)) :=
      mul_pos (by exact_mod_cast (show 0 < q by omega)) (zpow_pos (by norm_num) _)
    rw [← hstrip] at hpos
    simp [natOfDigits] at hpos
  have htext : [48, 46] ++ List.replicate n 48 ++ stripZeros (decimal q) =
      [48] ++ fraction (List.replicate n 48 ++ stripZeros (decimal q)) ++ [] := by
    rw [fraction, if_neg hne, List.append_nil, List.append_assoc]
    rfl
  rw [htext, tokenValue, decimalParts_text (List.cons_ne_nil _ _) ?_ ?_ (by simp) rfl,
    Option.map_some]
  · congr 2
    have hzero : [48] ++ (List.replicate n 48 ++ stripZeros (decimal q)) =
        List.replicate (n + 1) 48 ++ stripZeros (decimal q) := by
      rw [List.replicate_succ]
      rfl
    rw [hzero, natOfDigits_replicate_append, List.length_append, List.length_replicate]
    rw [show (0 - ((n + (stripZeros (decimal q)).length : ℕ) : ℤ)) =
      -((stripZeros (decimal q)).length : ℤ) + -(n : ℤ) by omega, zpow_add₀ (by norm_num),
      ← mul_assoc, hstrip, mul_assoc, ← zpow_add₀ (by norm_num)]
    congr 2
    omega
  · intro c hc
    rw [List.mem_singleton.mp hc]
    rfl
  · intro c hc
    rcases List.mem_append.mp hc with hc | hc
    · rw [List.eq_of_mem_replicate hc]
      rfl
    · exact isDigit_of_mem_decimal ((List.rdropWhile_prefix _ _).subset hc)

/-- The layout of ten digits stands for them, at their decimal place. -/
theorem tokenValue_layout {negative : Bool} {q : ℕ} (hq : 10 ^ 9 ≤ q ∧ q < 10 ^ 10) (x : ℤ) :
    tokenValue ((if negative then [45] else []) ++ layout q x) =
      some (sign negative * (q * 10 ^ (x - 9))) := by
  unfold layout
  by_cases h₁ : x < -4 ∨ 10 ≤ x
  · rw [if_pos h₁]
    have htail : ∀ c ∈ (printExponent x).head?, isDigit c = false ∧ c ≠ 46 := by
      intro c hc
      cases hc
      decide
    have hdigits := @tokenValue_digits negative q 0 _ _ hq (by decide) htail
      (exponentPart_printExponent x)
    rw [zero_add] at hdigits
    rw [hdigits, Nat.cast_zero, add_zero]
  rw [if_neg h₁]
  by_cases h₂ : 0 ≤ x
  · have hx : x.toNat < 10 := by omega
    have hdigits := @tokenValue_digits negative q x.toNat [] 0 hq hx (by simp) rfl
    rw [List.append_nil] at hdigits
    rw [if_pos h₂, hdigits, zero_add, Int.toNat_of_nonneg h₂]
  · have hn : (((-x - 1).toNat : ℕ) : ℤ) = -x - 1 := Int.toNat_of_nonneg (by omega)
    have hexp : -(((-x - 1).toNat : ℕ) : ℤ) - 10 = x - 9 := by omega
    rw [if_neg h₂, tokenValue_zeros hq, hexp]

/-! ## Reading and printing doubles -/

namespace Double

theorem magnitude_eq (d : Double) : d.magnitude =
    ((d.mantissa * (powerFraction 2 d.exponent).1 : ℕ) : ℚ) / (powerFraction 2 d.exponent).2 := by
  have hvalue := powerFraction_value (show 0 < 2 by decide) d.exponent
  rw [Nat.cast_ofNat] at hvalue
  rw [magnitude, Nat.cast_mul, mul_div_assoc, hvalue]

end Double

/-- What is printed is the magnitude, rounded to ten significant digits. -/
theorem tokenValue_printG10 {d : Double} (h : d.mantissa ≠ 0) : ∃ q : ℕ, q ≤ 10 ^ 10 ∧
    tokenValue (printG10 d) =
      some (sign d.negative * (q * 10 ^ (Int.log 10 d.magnitude - 9))) ∧
    ∀ n : ℕ, d.magnitude / 10 ^ (Int.log 10 d.magnitude - 9) = n → q = n := by
  have hp := powerFraction_pos (show 0 < 2 by decide) d.exponent
  have hnum : 0 < d.mantissa * (powerFraction 2 d.exponent).1 :=
    Nat.mul_pos (Nat.pos_of_ne_zero h) hp.1
  have hlog := decimalExponent_eq_log hnum hp.2
  rw [← d.magnitude_eq] at hlog
  obtain ⟨hlower, hupper⟩ := scaled_decimalExponent_bounds hnum hp.2
  rw [hlog] at hlower hupper
  refine ⟨_, hupper, ?_, ?_⟩
  · simp only [printG10, if_neg h, hlog]
    generalize scaled _ _ 10 _ = q at hlower hupper ⊢
    by_cases hq : q = 10 ^ 10
    · have hexp : (10 : ℚ) ^ (Int.log 10 d.magnitude + 1 - 9) =
          10 * 10 ^ (Int.log 10 d.magnitude - 9) := by
        rw [← zpow_one_add₀ (by norm_num)]
        congr 1
        omega
      rw [if_pos hq, tokenValue_layout ⟨le_rfl, by decide⟩, hexp, hq]
      norm_num [← mul_assoc]
    · rw [if_neg hq, tokenValue_layout ⟨hlower, by omega⟩]
  · intro n hn
    refine scaled_eq (by decide) hp.2 ?_
    rw [← d.magnitude_eq]
    exact_mod_cast hn

/-- The number can be written with ten significant digits. -/
def TenDigits (z : ℤ) : Prop := ∃ q k : ℕ, q < 10 ^ 10 ∧ z.natAbs = q * 10 ^ k

theorem abs_sign_mul (negative : Bool) {m : ℚ} (hm : 0 ≤ m) : |sign negative * m| = m := by
  cases negative <;> simp [sign, abs_of_nonneg hm]

theorem Double.magnitude_nonneg (d : Double) : 0 ≤ d.magnitude :=
  mul_nonneg (Nat.cast_nonneg _) (zpow_nonneg (by norm_num) _)

/-- The magnitude of a whole double. -/
theorem Double.natAbs_eq_magnitude {d : Double} {z : ℤ} (h : d.value = z) :
    (z.natAbs : ℚ) = d.magnitude := by
  rw [Nat.cast_natAbs, Int.cast_abs, ← h, value, abs_sign_mul _ d.magnitude_nonneg]

/-- Zero is printed as such, perhaps with a sign. -/
theorem tokenValue_printG10_zero {d : Double} (h : d.mantissa = 0) :
    tokenValue (printG10 d) = some 0 := by
  have hparts := @decimalParts_text d.negative [48] [] [] 0 (by simp)
    (List.forall_mem_singleton.mpr rfl) (by simp) (by simp) rfl
  have hdigits : natOfDigits ([48] ++ []) = 0 := rfl
  rw [hdigits] at hparts
  simp only [printG10, if_pos h]
  rw [tokenValue, show [48] = [48] ++ fraction [] ++ [] from rfl, hparts]
  simp

/-- A whole number below `2 ^ 53` has no bit behind the point. -/
theorem lastBit_nonpos {m den : ℕ} (hm : 0 < m ∧ m < 2 ^ 53) (hden : 0 < den) :
    lastBit (m * den) den ≤ 0 := by
  have hlog : Nat.log2 (m * den) ≤ Nat.log2 den + 53 := by
    have hlt : m * den < 2 ^ (Nat.log2 den + 1 + 53) := by
      calc m * den < 2 ^ 53 * 2 ^ (Nat.log2 den + 1) :=
            Nat.mul_lt_mul_of_lt_of_lt hm.2 Nat.lt_log2_self
        _ = 2 ^ (Nat.log2 den + 1 + 53) := by rw [← pow_add, Nat.add_comm]
    have hne : m * den ≠ 0 := (Nat.mul_pos hm.1 hden).ne'
    have := (Nat.log2_lt hne).mpr hlt
    omega
  unfold lastBit
  simp only
  generalize he : (Nat.log2 (m * den) - Nat.log2 den - 52 : ℤ) = e
  rcases show e ≤ 0 ∨ e = 1 by omega with hle | rfl
  · split <;> omega
  · rw [if_pos]
    · decide
    · change m * den * 1 < 2 ^ 52 * (den * 2)
      calc m * den * 1 = m * den := Nat.mul_one _
        _ < 2 ^ 53 * den := Nat.mul_lt_mul_of_pos_right hm.2 hden
        _ = 2 ^ 52 * (den * 2) := by ring

/-- A whole number below `2 ^ 53` is a double. -/
theorem ofFraction_exact (negative : Bool) {num den m : ℕ} (hden : 0 < den)
    (hnum : num = m * den) (hm : m < 2 ^ 53) :
    ∃ d, Double.ofFraction negative num den = some d ∧ d.negative = negative ∧
      d.magnitude = m := by
  subst hnum
  by_cases hzero : m = 0
  · subst hzero
    exact ⟨⟨negative, 0, 0⟩, by rw [Nat.zero_mul]; rfl, rfl, by simp [Double.magnitude]⟩
  have hpos : 0 < m * den := Nat.mul_pos (Nat.pos_of_ne_zero hzero) hden
  have hlast := lastBit_nonpos ⟨Nat.pos_of_ne_zero hzero, hm⟩ hden
  obtain ⟨j, hj⟩ := Int.eq_ofNat_of_zero_le (show 0 ≤ -lastBit (m * den) den by omega)
  have hd : (den : ℚ) ≠ 0 := by exact_mod_cast hden.ne'
  have hscaled : scaled (m * den) den 2 (lastBit (m * den) den) = m * 2 ^ j := by
    refine scaled_eq (by decide) hden ?_
    rw [show lastBit (m * den) den = -(j : ℤ) by omega]
    push_cast
    rw [mul_div_cancel_right₀ _ hd, zpow_neg, zpow_natCast, div_inv_eq_mul]
  refine ⟨⟨negative, scaled (m * den) den 2 (lastBit (m * den) den), lastBit (m * den) den⟩,
    ?_, rfl, ?_⟩
  · rw [Double.ofFraction, if_neg hpos.ne']
    simp only
    rw [if_neg (by omega)]
  · rw [Double.magnitude]
    simp only [hscaled]
    rw [show lastBit (m * den) den = -(j : ℤ) by omega]
    push_cast
    rw [zpow_neg, zpow_natCast, mul_assoc, mul_inv_cancel₀ (by positivity), mul_one]

/-- A whole number below `2 ^ 53` is read exactly. -/
theorem lexicalCastDouble_exact {token : Bytes} {z : ℤ} (h : tokenValue token = some (z : ℚ))
    (hz : z.natAbs < 2 ^ 53) : ∃ d, lexicalCastDouble token = some d ∧ d.value = z := by
  obtain ⟨⟨negative, n, e⟩, hparts, hvalue⟩ := Option.map_eq_some_iff.mp h
  simp only at hvalue
  have hp := powerFraction_pos (show 0 < 10 by decide) e
  have hp₂ : ((powerFraction 10 e).2 : ℚ) ≠ 0 := by exact_mod_cast hp.2.ne'
  have habs : (z.natAbs : ℚ) = n * 10 ^ e := by
    rw [Nat.cast_natAbs, Int.cast_abs, ← hvalue]
    exact abs_sign_mul _ (mul_nonneg (Nat.cast_nonneg _) (zpow_nonneg (by norm_num) _))
  have hnum : n * (powerFraction 10 e).1 = z.natAbs * (powerFraction 10 e).2 := by
    have hpower := powerFraction_value (show 0 < 10 by decide) e
    rw [Nat.cast_ofNat] at hpower
    rw [← hpower, ← mul_div_assoc, eq_div_iff hp₂] at habs
    exact_mod_cast habs.symm
  obtain ⟨d, hd, hnegative, hmagnitude⟩ := ofFraction_exact negative hp.2 hnum hz
  refine ⟨d, ?_, ?_⟩
  · rw [lexicalCastDouble_eq, hparts]
    exact hd
  · rw [Double.value, hnegative, hmagnitude, habs, hvalue]

/-- A whole number that is read from a printed text has ten significant digits. -/
theorem tenDigits_of_printG10 {d : Double} {z : ℤ} (h : tokenValue (printG10 d) = some (z : ℚ)) :
    TenDigits z := by
  by_cases hd : d.mantissa = 0
  · rw [tokenValue_printG10_zero hd] at h
    have hz : z = 0 := by exact_mod_cast (Option.some.inj h).symm
    exact ⟨0, 0, by decide, by rw [hz]; rfl⟩
  obtain ⟨q, hq, hvalue, -⟩ := tokenValue_printG10 hd
  generalize hx : Int.log 10 d.magnitude - 9 = x at hvalue
  rw [hvalue] at h
  have habs : (z.natAbs : ℚ) = q * 10 ^ x := by
    rw [Nat.cast_natAbs, Int.cast_abs, ← Option.some.inj h]
    exact abs_sign_mul _ (mul_nonneg (Nat.cast_nonneg _) (zpow_nonneg (by norm_num) _))
  rcases le_or_gt 0 x with hpos | hneg
  · obtain ⟨k, rfl⟩ := Int.eq_ofNat_of_zero_le hpos
    have hz : z.natAbs = q * 10 ^ k := by exact_mod_cast habs
    rcases Nat.lt_or_eq_of_le hq with hlt | rfl
    · exact ⟨q, k, hlt, hz⟩
    · exact ⟨1, k + 10, by decide, by rw [hz, pow_add, one_mul, Nat.mul_comm]⟩
  · -- the last digit stands behind the point, so the number is below ten billion
    have hten : (10 : ℚ) ^ x ≤ 10 ^ (-1 : ℤ) := zpow_le_zpow_right₀ (by norm_num) (by omega)
    have hlt : (z.natAbs : ℚ) < 10 ^ 10 := by
      calc (z.natAbs : ℚ) = q * 10 ^ x := habs
        _ ≤ 10 ^ 10 * 10 ^ (-1 : ℤ) := mul_le_mul (by exact_mod_cast hq) hten
          (zpow_nonneg (by norm_num) _) (by norm_num)
        _ < 10 ^ 10 := by norm_num
    exact ⟨z.natAbs, 0, by exact_mod_cast hlt, by rw [pow_zero, Nat.mul_one]⟩

/-- Ten significant digits are printed exactly. -/
theorem tokenValue_printG10_of_tenDigits {d : Double} {z : ℤ} (hd : d.value = z)
    (hz : TenDigits z) : tokenValue (printG10 d) = some (z : ℚ) := by
  by_cases hzero : d.mantissa = 0
  · rw [tokenValue_printG10_zero hzero, ← hd, Double.value, Double.magnitude, hzero]
    simp
  obtain ⟨q, k, hq, habs⟩ := hz
  have hmag : d.magnitude = q * 10 ^ (k : ℤ) := by
    rw [← Double.natAbs_eq_magnitude hd, habs]
    push_cast
    rfl
  have hpos : 0 < d.magnitude := by
    refine lt_of_le_of_ne d.magnitude_nonneg fun h => ?_
    rcases mul_eq_zero.mp h.symm with h | h
    · exact hzero (by exact_mod_cast h)
    · exact absurd h (zpow_ne_zero _ (by norm_num))
  obtain ⟨n, -, hvalue, hexact⟩ := tokenValue_printG10 hzero
  generalize hx : Int.log 10 d.magnitude = x at hvalue hexact
  have hxk : x - 9 ≤ k := by
    have hlog : (10 : ℚ) ^ x ≤ d.magnitude := by
      rw [← hx]
      exact_mod_cast Int.zpow_log_le_self (by decide) hpos
    have hlt : (10 : ℚ) ^ x < 10 ^ (10 + k : ℤ) := by
      calc (10 : ℚ) ^ x ≤ q * 10 ^ (k : ℤ) := hlog.trans_eq hmag
        _ < 10 ^ (10 : ℤ) * 10 ^ (k : ℤ) := by
          refine mul_lt_mul_of_pos_right ?_ (zpow_pos (by norm_num) _)
          exact_mod_cast hq
        _ = 10 ^ (10 + k : ℤ) := (zpow_add₀ (by norm_num) _ _).symm
    have := (zpow_lt_zpow_iff_right₀ (by norm_num)).mp hlt
    omega
  obtain ⟨j, hj⟩ := Int.eq_ofNat_of_zero_le (show 0 ≤ (k : ℤ) - (x - 9) by omega)
  have hne : (10 : ℚ) ^ (x - 9) ≠ 0 := zpow_ne_zero _ (by norm_num)
  have hn : n = q * 10 ^ j := by
    refine hexact _ ?_
    rw [hmag, div_eq_iff hne, show (k : ℤ) = j + (x - 9) by omega, zpow_add₀ (by norm_num)]
    push_cast
    rw [zpow_natCast, mul_assoc]
  rw [hvalue, ← hd, Double.value, hmag, hn, show (k : ℤ) = j + (x - 9) by omega,
    zpow_add₀ (by norm_num)]
  push_cast
  rw [zpow_natCast, mul_assoc]

end Quarks
