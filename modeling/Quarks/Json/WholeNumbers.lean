import Quarks.Json.RoundTrip

/-!
# Whole numbers

A `wvalue` holds a whole number as a double and prints it with ten significant digits.
For a number of at most ten digits that is its decimal text, which is read back as the
number.
-/

namespace Quarks

/-- The number of places does not matter if they are enough. -/
private theorem decimalWithin_eq {places places' n : ℕ} (h : n < places) (h' : n < places') :
    decimalWithin places n = decimalWithin places' n := by
  induction places generalizing places' n with
  | zero => omega
  | succ places ih =>
    obtain ⟨places', rfl⟩ : ∃ m, places' = m + 1 := ⟨places' - 1, by omega⟩
    rw [decimalWithin, decimalWithin]
    split
    · rfl
    · rw [ih (show n / 10 < places by omega) (show n / 10 < places' by omega)]

/-- The text of a number of two digits or more ends with its last digit. -/
theorem decimal_of_ten_le {n : ℕ} (h : 10 ≤ n) :
    decimal n = decimal (n / 10) ++ [digitChar (n % 10)] := by
  rw [decimal, decimalWithin, if_neg (by omega), decimal]
  rw [decimalWithin_eq (show n / 10 < n by omega) (Nat.lt_succ_self _)]

/-- Multiplying by a power of ten adds zeros at the end. -/
theorem decimal_mul_pow {n : ℕ} (hn : 0 < n) (k : ℕ) :
    decimal (n * 10 ^ k) = decimal n ++ List.replicate k 48 := by
  induction k with
  | zero => simp
  | succ k ih =>
    have hpos : 0 < n * 10 ^ k := Nat.mul_pos hn (Nat.pow_pos (by decide))
    have hmul : n * 10 ^ (k + 1) = 10 * (n * 10 ^ k) := by
      rw [pow_succ, ← Nat.mul_assoc, Nat.mul_comm]
    rw [hmul, decimal_of_ten_le (by omega), Nat.mul_div_cancel_left _ (by decide), ih,
      Nat.mul_mod_right, List.replicate_succ', List.append_assoc]
    rfl

/-- The decimal exponent of a whole number is one less than the number of its digits. -/
theorem decimalExponent_whole {n : ℕ} (hn : 0 < n) :
    decimalExponent n 1 = (decimal n).length - 1 := by
  have hlower := pow_length_decimal_le hn
  have hlen : 0 < (decimal n).length := List.length_pos_of_ne_nil (decimal_ne_nil n)
  obtain ⟨k, hk⟩ : ∃ k, (decimal n).length = k + 1 := ⟨(decimal n).length - 1, by omega⟩
  have hle : 10 ^ k ≤ n := by
    rw [hk, pow_succ] at hlower
    omega
  have hone : (decimal 1).length = 1 := rfl
  simp only [decimalExponent, hone, hk, powerFraction]
  have hk' : ((k + 1 : ℕ) : ℤ) - (1 : ℕ) = k := by omega
  rw [hk', if_pos (Int.natCast_nonneg k)]
  simp only [Int.toNat_natCast, one_mul, mul_one]
  rw [if_pos hle]
  omega

/-- The ten significant digits of a whole number are its digits and zeros behind them. -/
theorem scaled_whole {n k : ℕ} (hk : k ≤ 9) : scaled n 1 10 (k - 9) = n * 10 ^ (9 - k) := by
  have hp : powerFraction 10 ((k : ℤ) - 9) = (1, 10 ^ (9 - k)) := by
    unfold powerFraction
    split
    · have hnine : k = 9 := by omega
      subst hnine
      rfl
    · have hexp : (-((k : ℤ) - 9)).toNat = 9 - k := by omega
      rw [hexp]
  simp only [scaled, hp, one_mul, nearest, Nat.div_one, Nat.mod_one]
  rw [if_neg (by omega)]

theorem stripZeros_replicate (k : ℕ) : stripZeros (List.replicate k 48) = [] := by
  rw [stripZeros, List.rdropWhile_eq_nil_iff]
  intro c hc
  simp [List.eq_of_mem_replicate hc]

/-- The layout of these digits is the decimal text. -/
theorem layout_whole {n k : ℕ} (hn : 0 < n) (hlen : (decimal n).length = k + 1) (hk : k ≤ 9) :
    layout (n * 10 ^ (9 - k)) k = decimal n := by
  have hrange : ¬((k : ℤ) < -4 ∨ 10 ≤ (k : ℤ)) := by omega
  have htake : (k : ℤ).toNat + 1 = (decimal n).length := by
    rw [hlen]
    rfl
  simp only [layout, decimal_mul_pow hn]
  rw [if_neg hrange, if_pos (Int.natCast_nonneg k), htake, List.take_left, List.drop_left,
    stripZeros_replicate]
  simp [fraction]

/-- A whole number of at most ten digits is printed as its decimal text. -/
theorem printG10_ofInt {z : ℤ} (h : z.natAbs < 10 ^ 10) :
    printG10 (Double.ofInt z) = toString z := by
  have hsign : printG10 (Double.ofInt z) =
      (if z < 0 then [45] else []) ++ decimal z.natAbs := by
    unfold printG10 Double.ofInt
    simp only [decide_eq_true_eq]
    by_cases hz : z.natAbs = 0
    · rw [if_pos hz, hz]
      rfl
    · rw [if_neg hz]
      have hpos : 0 < z.natAbs := by omega
      have hupper := lt_pow_length_decimal z.natAbs
      have hlower := pow_length_decimal_le hpos
      obtain ⟨k, hk⟩ : ∃ k, (decimal z.natAbs).length = k + 1 := by
        have hlen := List.length_pos_of_ne_nil (decimal_ne_nil z.natAbs)
        exact ⟨(decimal z.natAbs).length - 1, by omega⟩
      rw [hk] at hupper hlower
      have hk9 : k ≤ 9 := by
        by_contra hgt
        have hpow : 10 ^ 11 ≤ 10 ^ (k + 1) := Nat.pow_le_pow_right (by decide) (by omega)
        omega
      have hx : decimalExponent z.natAbs 1 = k := by
        rw [decimalExponent_whole hpos, hk]
        omega
      have hp : powerFraction 2 0 = (1, 1) := rfl
      have hq : z.natAbs * 10 ^ (9 - k) < 10 ^ 10 := by
        calc z.natAbs * 10 ^ (9 - k) < 10 ^ (k + 1) * 10 ^ (9 - k) :=
              Nat.mul_lt_mul_of_pos_right hupper (Nat.pow_pos (by decide))
          _ = 10 ^ 10 := by
            rw [← pow_add]
            congr 1
            omega
      simp only [hp, mul_one, hx, scaled_whole hk9]
      rw [if_neg hq.ne, layout_whole hpos hk hk9]
  rw [hsign, toString]
  split <;> rfl

/-- The printed form of a 64-bit number is read back as the number. -/
theorem lexicalCastInt64_toString {z : ℤ} (h : -2 ^ 63 ≤ z ∧ z < 2 ^ 63) :
    lexicalCastInt64 (toString z) = some z := by
  obtain ⟨c, s, heq⟩ := List.exists_cons_of_ne_nil (decimal_ne_nil z.natAbs)
  have hc : isDigit c = true := isDigit_of_mem_decimal (n := z.natAbs) (by simp [heq])
  have hsign : c ≠ 45 ∧ c ≠ 43 := by
    constructor <;> rintro rfl <;> exact absurd hc (by decide)
  have hrest : ∀ d ∈ s, isDigit d = true := fun d hd =>
    isDigit_of_mem_decimal (n := z.natAbs) (by simp [heq, hd])
  have hall : (c :: s).all isDigit = true := by simpa [hc] using hrest
  have hval : natOfDigits (c :: s) = z.natAbs := heq ▸ natOfDigits_decimal z.natAbs
  have hrange : -9223372036854775808 ≤ z ∧ z < 9223372036854775808 := by omega
  unfold lexicalCastInt64 toString
  rw [heq]
  by_cases hneg : z < 0
  · have hz : -(z.natAbs : ℤ) = z := by omega
    rw [if_pos hneg]
    simp only [hall, hval, if_true, hz]
    simp [hrange]
  · have hz : (z.natAbs : ℤ) = z := by omega
    rw [if_neg hneg]
    simpa [hsign, hval, hz, hrange, hc] using hrest

/-! ## Numbers in texts -/

/-- `std::isspace` in the C locale. -/
def isSpace (c : UInt8) : Bool := c = 32 || 9 ≤ c && c ≤ 13

/-- `std::stoi`: the number at the start of the text. -/
def stoi (s : Bytes) : Except Failure ℤ :=
  let (negative, s) : Bool × Bytes := match s.dropWhile isSpace with
    | 45 :: r => (true, r)
    | 43 :: r => (false, r)
    | r => (false, r)
  let digits := s.takeWhile isDigit
  if digits = [] then .error .invalidArgument
  else
    let z : ℤ := if negative then -(natOfDigits digits : ℤ) else natOfDigits digits
    if -2 ^ 31 ≤ z ∧ z < 2 ^ 31 then .ok z else .error .outOfRange

/-- A text without a number is no argument, and a number that is no `int` is out of range. -/
theorem stoi_cases (s : Bytes) : stoi s = .error .invalidArgument ∨ stoi s = .error .outOfRange ∨
    ∃ z, stoi s = .ok z ∧ -2 ^ 31 ≤ z ∧ z < 2 ^ 31 := by
  have hdigits : ∀ (digits : Bytes) (z : ℤ) (r : Except Failure ℤ), r =
      (if digits = [] then .error .invalidArgument
        else if -2 ^ 31 ≤ z ∧ z < 2 ^ 31 then .ok z else .error .outOfRange) →
      r = .error .invalidArgument ∨ r = .error .outOfRange ∨
        ∃ z, r = .ok z ∧ -2 ^ 31 ≤ z ∧ z < 2 ^ 31 := by
    rintro digits z r rfl
    by_cases hdigits : digits = []
    · exact Or.inl (if_pos hdigits)
    · rw [if_neg hdigits]
      by_cases hrange : -2 ^ 31 ≤ z ∧ z < 2 ^ 31
      · exact Or.inr (Or.inr ⟨z, if_pos hrange, hrange⟩)
      · exact Or.inr (Or.inl (if_neg hrange))
  exact hdigits _ _ _ rfl

/-- A text that is no integer, or one out of range, raises no runtime error. -/
theorem stoi_error {s : Bytes} {f : Failure} (h : stoi s = .error f) :
    f.isRuntimeError = false := by
  rcases stoi_cases s with hs | hs | ⟨z, hs, -⟩ <;> rw [hs] at h <;> cases h <;> rfl

/-- A number that is read is an `int`. -/
theorem stoi_range {s : Bytes} {z : ℤ} (h : stoi s = .ok z) : -2 ^ 31 ≤ z ∧ z < 2 ^ 31 := by
  rcases stoi_cases s with hs | hs | ⟨z', hs, hrange⟩ <;> rw [hs] at h
  · cases h
  · cases h
  · exact Except.ok.inj h ▸ hrange

/-- A digit is neither white space nor a sign. -/
theorem isDigit_start {c : UInt8} (h : isDigit c = true) :
    isSpace c = false ∧ c ≠ 45 ∧ c ≠ 43 := by
  refine ⟨?_, ?_, ?_⟩
  · cases hspace : isSpace c with
    | false => rfl
    | true =>
      simp only [isSpace, isDigit, Bool.or_eq_true, Bool.and_eq_true, decide_eq_true_eq,
        UInt8.le_iff_toNat_le, ← UInt8.toNat_inj] at hspace h
      simp only [UInt8.reduceToNat] at hspace h
      omega
  all_goals
    rintro rfl
    exact absurd h (by decide)

/-- The printed form of a 32-bit number is read back as the number. -/
theorem stoi_toString {z : ℤ} (h : -2 ^ 31 ≤ z ∧ z < 2 ^ 31) : stoi (toString z) = .ok z := by
  obtain ⟨c, s, heq⟩ := List.exists_cons_of_ne_nil (decimal_ne_nil z.natAbs)
  have hc : isDigit c = true := isDigit_of_mem_decimal (n := z.natAbs) (by simp [heq])
  obtain ⟨hspace, hsign⟩ := isDigit_start hc
  have hspan : (c :: s).takeWhile isDigit = c :: s :=
    List.takeWhile_eq_self_iff.mpr fun d hd => isDigit_of_mem_decimal (n := z.natAbs) (heq ▸ hd)
  have hval : natOfDigits (c :: s) = z.natAbs := heq ▸ natOfDigits_decimal z.natAbs
  have hrange : -2147483648 ≤ z ∧ z < 2147483648 := by omega
  unfold stoi toString
  rw [heq]
  by_cases hneg : z < 0
  · have hz : -(z.natAbs : ℤ) = z := by omega
    rw [if_pos hneg]
    simp only [List.dropWhile_cons, show isSpace 45 = false from rfl, Bool.false_eq_true, if_false,
      hspan, hval, if_true, hz]
    simp [hrange]
  · have hz : (z.natAbs : ℤ) = z := by omega
    rw [if_neg hneg]
    simp [hspace, hsign, hspan, hval, hz, hrange]

/-! ## One increment -/

end Quarks
