import Schemata.Numeral.Binary64

/-!
# Number literals

A number literal is kept exactly as it is written, whatever its length.  It is converted where a
number of some kind is asked for, and the conversion may round (`Number.toBinary64?`) or fail
(`Number.toDecimal?`).

Exact decimals are not part of the program but of a library, so the library is a parameter of the
conversions that need one.
-/

namespace Schemata

/-- A library of exact decimals.  A decimal is a whole number of units, with a sign of its own, of
    which some digits stand behind the point. -/
structure DecimalLibrary where
  Value : Type
  /-- The decimal that a text stands for, if that can be had without rounding. -/
  ofText? : String → Option Value
  /-- The text of a decimal. -/
  print : Value → String
  negative : Value → Bool
  /-- The digits of a decimal, read without the point. -/
  units : Value → Nat
  /-- How many of the digits stand behind the point. -/
  scale : Value → Nat

/-- A number literal, as it is written. -/
structure Number where
  text : String
  deriving DecidableEq, Repr

namespace Number

/-- The binary floating-point number nearest to the literal. -/
def toBinary64? (number : Number) : Option Numeral.Binary64 :=
  Numeral.Binary64.ofText? number.text.toList

/-- The exact value of the literal, if the library has it. -/
def toDecimal? (library : DecimalLibrary) (number : Number) : Option library.Value :=
  library.ofText? number.text

/-- The literal for a decimal. -/
def ofDecimal (library : DecimalLibrary) (value : library.Value) : Number :=
  ⟨library.print value⟩

end Number

end Schemata
