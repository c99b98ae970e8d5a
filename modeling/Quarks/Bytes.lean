import Mathlib.Data.List.Lex
import Mathlib.Data.List.TakeWhile
import Mathlib.Tactic.IntervalCases

/-!
# Byte strings

`std::string` holds arbitrary bytes, and both RocksDB and `std::map` order keys
by their bytes as unsigned numbers. A string that is read through `c_str()` ends
at its first zero byte.
-/

namespace Quarks

/-- Bytes are ordered as unsigned numbers. -/
instance byteLinearOrder : LinearOrder UInt8 where
  le_refl := UInt8.le_refl
  le_trans _ _ _ := UInt8.le_trans
  le_antisymm _ _ := UInt8.le_antisymm
  le_total := UInt8.le_total
  lt_iff_le_not_ge a b := by
    rw [UInt8.lt_iff_toNat_lt, UInt8.le_iff_toNat_le, UInt8.le_iff_toNat_le]
    omega
  toDecidableLE := inferInstance
  toDecidableEq := inferInstance
  toDecidableLT := inferInstance

/-- A `std::string`: any bytes, of any length. -/
abbrev Bytes := List UInt8

/-- The bytes of an ASCII literal. -/
def ascii (s : String) : Bytes := s.toList.map fun c => UInt8.ofNat c.toNat

/-- An integer as a `size_t`. -/
def sizeT (z : ℤ) : ℕ := (z % 2 ^ 64).toNat

/-- What is left of a string that is read through `c_str()`. -/
def cstr (s : Bytes) : Bytes := s.takeWhile (· ≠ 0)

theorem zero_not_mem_cstr (s : Bytes) : (0 : UInt8) ∉ cstr s := fun h => by
  simpa using List.mem_takeWhile_imp h

/-- A string without a zero byte is read in full. -/
theorem cstr_eq_self {s : Bytes} (h : (0 : UInt8) ∉ s) : cstr s = s := by
  rw [cstr, List.takeWhile_eq_self_iff]
  intro c hc
  simpa using fun hzero : c = 0 => h (hzero ▸ hc)

/-- A terminating zero ends a string that has none of its own. -/
theorem cstr_append_zero {s : Bytes} (h : (0 : UInt8) ∉ s) (rest : Bytes) :
    cstr (s ++ 0 :: rest) = s := by
  have hall : ∀ c ∈ s, decide (c ≠ 0) = true := by
    intro c hc
    simpa using fun hzero : c = 0 => h (hzero ▸ hc)
  rw [cstr, List.takeWhile_append_of_pos hall]
  simp

/-- `std::isdigit` in the C locale. -/
def isDigit (c : UInt8) : Bool := 48 ≤ c && c ≤ 57

/-- The digit character of a number below ten. -/
def digitChar (n : ℕ) : UInt8 := UInt8.ofNat (48 + n)

/-- The value of a digit character. -/
def digitVal (c : UInt8) : ℕ := c.toNat - 48

theorem isDigit_digitChar {n : ℕ} (h : n < 10) : isDigit (digitChar n) = true := by
  interval_cases n <;> rfl

theorem digitVal_digitChar {n : ℕ} (h : n < 10) : digitVal (digitChar n) = n := by
  interval_cases n <;> rfl

/-- The decimal digits of a number that fit into a given count of places. -/
def decimalWithin : ℕ → ℕ → Bytes
  | 0, _ => []
  | places + 1, n =>
    if n < 10 then [digitChar n] else decimalWithin places (n / 10) ++ [digitChar (n % 10)]

/-- The decimal text of a natural number. -/
def decimal (n : ℕ) : Bytes := decimalWithin (n + 1) n

/-- `std::to_string` of a signed number. -/
def toString (z : ℤ) : Bytes := if z < 0 then 45 :: decimal z.natAbs else decimal z.natAbs

/-- The number written by a run of digits. -/
def natOfDigits (s : Bytes) : ℕ := s.foldl (fun n c => 10 * n + digitVal c) 0

theorem natOfDigits_append_singleton (s : Bytes) (c : UInt8) :
    natOfDigits (s ++ [c]) = 10 * natOfDigits s + digitVal c := by
  simp [natOfDigits, List.foldl_append]

theorem isDigit_of_mem_decimalWithin {places n : ℕ} {c : UInt8}
    (h : c ∈ decimalWithin places n) : isDigit c = true := by
  induction places generalizing n with
  | zero => simp [decimalWithin] at h
  | succ places ih =>
    rw [decimalWithin] at h
    split at h
    · next hn => simpa [List.mem_singleton.mp h] using isDigit_digitChar hn
    · rcases List.mem_append.mp h with h | h
      · exact ih h
      · rw [List.mem_singleton.mp h]
        exact isDigit_digitChar (Nat.mod_lt _ (by decide))

/-- Every character of a decimal text is a digit. -/
theorem isDigit_of_mem_decimal {n : ℕ} {c : UInt8} (h : c ∈ decimal n) : isDigit c = true :=
  isDigit_of_mem_decimalWithin h

theorem natOfDigits_decimalWithin {places n : ℕ} (h : n < places) :
    natOfDigits (decimalWithin places n) = n := by
  induction places generalizing n with
  | zero => omega
  | succ places ih =>
    rw [decimalWithin]
    split
    · next hn => simp [natOfDigits, digitVal_digitChar hn]
    · next hn =>
      rw [natOfDigits_append_singleton, ih (by omega),
        digitVal_digitChar (Nat.mod_lt _ (by decide))]
      omega

/-- The decimal text of a number reads back as the number. -/
@[simp] theorem natOfDigits_decimal (n : ℕ) : natOfDigits (decimal n) = n :=
  natOfDigits_decimalWithin (Nat.lt_succ_self n)

theorem decimal_injective : Function.Injective decimal := fun n m h => by
  simpa using congrArg natOfDigits h

theorem decimal_ne_nil (n : ℕ) : decimal n ≠ [] := by
  rw [decimal, decimalWithin]
  split <;> simp

/-- Different numbers have different texts. -/
theorem toString_injective : Function.Injective toString := by
  have hsign : ∀ n m : ℕ, 45 :: decimal n ≠ decimal m := by
    intro n m h
    have hdigit : isDigit 45 = true := isDigit_of_mem_decimal (h ▸ List.mem_cons_self)
    cases hdigit
  intro z z' h
  unfold toString at h
  split at h <;> split at h
  · have habs := decimal_injective (List.cons.inj h).2
    omega
  · exact absurd h (hsign _ _)
  · exact absurd h.symm (hsign _ _)
  · have habs := decimal_injective h
    omega

end Quarks
