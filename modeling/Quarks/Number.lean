import Quarks.Bytes
import Mathlib.Data.List.DropRight

/-!
# Doubles, as crow reads and prints them

A `wvalue` holds every number as a `double`. It is read from the token of the
JSON text by `boost::lexical_cast` and printed with `"%0.10g"`. Both are given
here by exact integer arithmetic: reading rounds the decimal fraction to the
nearest double (ties to even) and fails beyond the range of doubles; printing
rounds the double to ten significant digits.
-/

namespace Quarks

/-- A finite double: a sign and the magnitude `mantissa * 2 ^ exponent`. -/
structure Double where
  negative : Bool
  mantissa : ℕ
  exponent : ℤ
  deriving DecidableEq

/-- A power as the numerator and denominator of a fraction. -/
def powerFraction (base : ℕ) (e : ℤ) : ℕ × ℕ :=
  if 0 ≤ e then (base ^ e.toNat, 1) else (1, base ^ (-e).toNat)

/-- The natural number nearest to a fraction, the even one if two are. -/
def nearest (num den : ℕ) : ℕ :=
  let q := num / den
  let r := num % den
  if den < 2 * r ∨ 2 * r = den ∧ q % 2 = 1 then q + 1 else q

/-- Scale the fraction `num / den` by `base ^ (-e)` and round it to a natural number. -/
def scaled (num den base : ℕ) (e : ℤ) : ℕ :=
  let p := powerFraction base e
  nearest (num * p.2) (den * p.1)

/-- The exponent of the last bit of a fraction's double: 53 bits, and not below
the exponent of the smallest subnormal. -/
def lastBit (num den : ℕ) : ℤ :=
  let e : ℤ := Nat.log2 num - Nat.log2 den - 52
  let p := powerFraction 2 e
  let e := if num * p.2 < 2 ^ 52 * (den * p.1) then e - 1 else e
  max e (-1074)

/-- The double nearest to a fraction, unless the fraction is out of range. -/
def Double.ofFraction (negative : Bool) (num den : ℕ) : Option Double :=
  if num = 0 then some ⟨negative, 0, 0⟩
  else
    let e := lastBit num den
    let m := scaled num den 2 e
    if 971 < e ∨ e = 971 ∧ 2 ^ 53 ≤ m then none else some ⟨negative, m, e⟩

/-- A signed 32-bit number as a double; it is exact. -/
def Double.ofInt (z : ℤ) : Double := ⟨decide (z < 0), z.natAbs, 0⟩

/-- Split off the leading digits. -/
def spanDigits (s : Bytes) : Bytes × Bytes := s.span isDigit

/-- The exponent part of a decimal text: absent, or `e`, a sign and digits to the end. -/
def exponentPart : Bytes → Option ℤ
  | [] => some 0
  | c :: rest =>
    if c = 101 ∨ c = 69 then
      let (neg, rest) : Bool × Bytes := match rest with
        | 45 :: r => (true, r)
        | 43 :: r => (false, r)
        | r => (false, r)
      -- `1e`, `1e+` and `1e-` are not numbers for `lexical_cast`
      if rest ≠ [] ∧ rest.all isDigit then
        some (if neg then -(natOfDigits rest : ℤ) else natOfDigits rest)
      else none
    else none

/-- `boost::lexical_cast<double>`; `none` is `bad_lexical_cast`. -/
def lexicalCastDouble (token : Bytes) : Option Double :=
  let (negative, s) : Bool × Bytes := match token with
    | 45 :: r => (true, r)
    | r => (false, r)
  let (whole, s) := spanDigits s
  let (frac, s) : Bytes × Bytes := match s with
    | 46 :: r => spanDigits r
    | r => ([], r)
  if whole = [] ∧ frac = [] then none
  else
    (exponentPart s).bind fun e =>
      let p := powerFraction 10 (e - frac.length)
      Double.ofFraction negative (natOfDigits (whole ++ frac) * p.1) p.2

/-- `boost::lexical_cast<int64_t>`; `none` is `bad_lexical_cast`. -/
def lexicalCastInt64 (token : Bytes) : Option ℤ :=
  let (negative, s) : Bool × Bytes := match token with
    | 45 :: r => (true, r)
    | 43 :: r => (false, r)
    | r => (false, r)
  if s ≠ [] ∧ s.all isDigit then
    let z : ℤ := if negative then -(natOfDigits s : ℤ) else natOfDigits s
    if -2 ^ 63 ≤ z ∧ z < 2 ^ 63 then some z else none
  else none

/-- Remove the zeros at the end. -/
def stripZeros (s : Bytes) : Bytes := s.rdropWhile (· = 48)

/-- The decimal exponent of a fraction: the place of its first significant digit. -/
def decimalExponent (num den : ℕ) : ℤ :=
  let k : ℤ := (decimal num).length - (decimal den).length
  let p := powerFraction 10 k
  if den * p.1 ≤ num * p.2 then k else k - 1

/-- A point and the digits after it, or nothing when there are none. -/
def fraction (digits : Bytes) : Bytes := if digits = [] then [] else 46 :: digits

/-- The exponent of `%g`: a sign and at least two digits. -/
def printExponent (x : ℤ) : Bytes :=
  101 :: (if x < 0 then 45 else 43) ::
    (if x.natAbs < 10 then 48 :: decimal x.natAbs else decimal x.natAbs)

/-- Lay out ten significant digits whose first stands at decimal place `x`. -/
def layout (q : ℕ) (x : ℤ) : Bytes :=
  let digits := decimal q
  if x < -4 ∨ 10 ≤ x then
    digits.take 1 ++ fraction (stripZeros (digits.drop 1)) ++ printExponent x
  else if 0 ≤ x then
    digits.take (x.toNat + 1) ++ fraction (stripZeros (digits.drop (x.toNat + 1)))
  else
    [48, 46] ++ List.replicate (-x - 1).toNat 48 ++ stripZeros digits

/-- `sprintf("%0.10g")` of a double. -/
def printG10 (d : Double) : Bytes :=
  let sign : Bytes := if d.negative then [45] else []
  if d.mantissa = 0 then sign ++ [48]
  else
    let p := powerFraction 2 d.exponent
    let num := d.mantissa * p.1
    let x := decimalExponent num p.2
    let q := scaled num p.2 10 (x - 9)
    -- rounding up to ten billion moves the first digit one place to the left
    sign ++ if q = 10 ^ 10 then layout (10 ^ 9) (x + 1) else layout q x

example : (lexicalCastDouble (ascii "-12.50")).map printG10 = some (ascii "-12.5") := by
  decide +kernel

example : (lexicalCastDouble (ascii "1700000000123")).map printG10 =
    some (ascii "1.7e+12") := by decide +kernel

end Quarks
