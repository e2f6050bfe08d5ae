import Schemata.Numeral.Decimal

/-!
# Binary floating-point numbers

`Binary64` is the set of values of the 64-bit binary interchange format.  A decimal is rounded to
the nearest of them, a tie to the one with the even mantissa, in exact arithmetic on natural
numbers.
-/

namespace Schemata.Numeral

/-- A value of the 64-bit binary format.  A finite one is its mantissa times a power of two; the
    mantissa is below `2 ^ 53`, and at least `2 ^ 52` unless the exponent is the least one. -/
inductive Binary64 where
  | finite (negative : Bool) (mantissa : Nat) (exponent : Int)
  | infinite (negative : Bool)
  | nan
  deriving DecidableEq, Repr

/-- A quotient rounded to the nearest whole number, a tie to the even one. -/
def roundDiv (num den : Nat) : Nat :=
  let quotient := num / den
  let rest := 2 * (num % den)
  if rest > den || (rest = den && quotient % 2 = 1) then quotient + 1 else quotient

/-- The quotient of `num / den` and a power of a base, as a numerator and a denominator. -/
def scaleDown (base num den : Nat) (exponent : Int) : Nat × Nat :=
  if exponent ≥ 0 then (num, den * Nat.pow base exponent.toNat)
  else (num * Nat.pow base (-exponent).toNat, den)

namespace Binary64

/-- The exponent of the least positive value. -/
def minExponent : Int := -1074

/-- The exponent of the largest finite value. -/
def maxExponent : Int := 971

/-- The least mantissa of a value that is not below the usual precision, `2 ^ 52`. -/
def leadingBit : Nat := 0x10000000000000

/-- The bound below which every mantissa is, `2 ^ 53`. -/
def mantissaBound : Nat := 0x20000000000000

/-- The exponent at which a positive quotient has a mantissa of 53 bits, or the least one. -/
def exponentOf (num den : Nat) : Int :=
  let guess : Int := (Nat.log2 num : Int) - Nat.log2 den - 53
  let (n, d) := scaleDown 2 num den guess
  max minExponent (if n / d ≥ mantissaBound then guess + 1 else guess)

/-- The value nearest to a positive quotient. -/
def ofRatio (negative : Bool) (num den : Nat) : Binary64 :=
  let exponent := exponentOf num den
  let (n, d) := scaleDown 2 num den exponent
  let mantissa := roundDiv n d
  let (mantissa, exponent) :=
    if mantissa = mantissaBound then (leadingBit, exponent + 1) else (mantissa, exponent)
  if exponent > maxExponent then infinite negative else finite negative mantissa exponent

/-- Zero, with its sign. -/
def zero (negative : Bool) : Binary64 :=
  finite negative 0 minExponent

/-- The value nearest to a decimal.  A decimal of at least `10 ^ 311` is beyond the largest value
    and one below `10 ^ -330` nearest to zero, whatever its digits. -/
def ofDecimal (value : Decimal) : Binary64 :=
  let magnitude : Int := (decimalDigits value.digits).length + value.exponent
  if value.digits = 0 || magnitude < -330 then zero value.negative
  else if magnitude > 311 then infinite value.negative
  else
    let (num, den) := scaleDown 10 value.digits 1 (-value.exponent)
    ofRatio value.negative num den

/-- Whether a text is one of the words, whatever the case of its letters. -/
def isWordAmong (words : List String) (text : List Char) : Bool :=
  words.contains (String.ofList (text.map Char.toLower))

/-- Reads a numeral, or a word for infinity or for no number, with an optional sign. -/
def ofText? (text : List Char) : Option Binary64 :=
  let (negative, rest) := splitSign text
  if isWordAmong ["inf", "infinity"] rest then some (infinite negative)
  else if isWordAmong ["nan"] rest then some nan
  else (unsigned? negative rest).map ofDecimal

/-- Whether the value is a number. -/
def isFinite : Binary64 → Bool
  | finite _ _ _ => true
  | _ => false

/-- The bit that marks a negative value, `2 ^ 63`. -/
def signBit : Nat := 0x8000000000000000

/-- The encoding of a value as a natural number below `2 ^ 64`. -/
def bits : Binary64 → Nat
  | finite negative mantissa exponent =>
    (if negative then signBit else 0) +
      if mantissa < leadingBit then mantissa
      else (exponent - minExponent + 1).toNat * leadingBit + (mantissa - leadingBit)
  | infinite negative => (if negative then signBit else 0) + 0x7ff * leadingBit
  | nan => 0x7ff8000000000000

/-- The encoding of a value as sixteen digits in base 16. -/
def hex (value : Binary64) : String :=
  let digits := Nat.toDigits 16 value.bits
  String.ofList (List.replicate (16 - digits.length) '0' ++ digits)

end Binary64

end Schemata.Numeral
