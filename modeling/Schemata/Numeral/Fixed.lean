import Schemata.Number

/-!
# Exact decimals of bounded size

A `Fixed` is a decimal with a fixed number of fraction digits whose digits, read without the
point, fit 96 bits.  Reading never rounds: a numeral that does not fit is refused.

These decimals are one library for the conversions of a number literal (`Fixed.library`).
-/

namespace Schemata.Numeral

namespace Fixed

/-- The largest number of fraction digits. -/
def maxFractionDigits : Nat := 28

/-- The bound below which the units have to be, `2 ^ 96`. -/
def unitBound : Nat := 0x1000000000000000000000000

end Fixed

/-- A signed number of units of the last fraction digit. -/
structure Fixed where
  negative : Bool
  units : Nat
  fractionDigits : Nat
  units_lt : units < Fixed.unitBound
  fractionDigits_le : fractionDigits ≤ Fixed.maxFractionDigits
  deriving DecidableEq, Repr

namespace Fixed

/-- The number with the given digits behind its sign, if they are not too many. -/
def ofUnits? (negative : Bool) (units fractionDigits : Nat) : Option Fixed :=
  if h : units < unitBound ∧ fractionDigits ≤ maxFractionDigits then
    some ⟨negative, units, fractionDigits, h.1, h.2⟩
  else none

/-- Reads a numeral without exponent: digits with at most one point among them. -/
def ofText? (text : List Char) : Option Fixed :=
  let (negative, rest) := splitSign text
  let whole := rest.takeWhile Char.isDigit
  let fraction := (rest.dropWhile Char.isDigit).drop 1
  let pointed := (rest.dropWhile Char.isDigit).head?.all (· = '.')
  if pointed && fraction.all Char.isDigit && !(whole ++ fraction).isEmpty then
    ofUnits? negative (digitsValue (whole ++ fraction)) fraction.length
  else none

/-- The digits of the units with at least one before the point. -/
def paddedDigits (value : Fixed) : List Char :=
  let digits := decimalDigits value.units
  List.replicate (value.fractionDigits + 1 - digits.length) '0' ++ digits

/-- Writes the number with all its fraction digits.  Zero has no sign. -/
def print (value : Fixed) : List Char :=
  let digits := value.paddedDigits
  let point := digits.length - value.fractionDigits
  (if value.negative && value.units ≠ 0 then ['-'] else []) ++ digits.take point ++
    (if value.fractionDigits = 0 then [] else '.' :: digits.drop point)

/-- The library of these decimals. -/
def library : DecimalLibrary where
  Value := Fixed
  ofText? text := ofText? text.toList
  print value := String.ofList value.print
  negative := negative
  units := units
  scale := fractionDigits

end Fixed

end Schemata.Numeral
