/-!
# Decimal numerals

`Decimal` is the value of a numeral, a whole number times a power of ten.  `unsigned?` reads a
numeral with a point anywhere among its digits and an optional exponent, and `splitSign` takes the
sign off that may stand before it.
-/

namespace Schemata.Numeral

/-- A signed whole number times a power of ten. -/
structure Decimal where
  negative : Bool
  digits : Nat
  exponent : Int
  deriving DecidableEq, Repr

/-- The value of a run of decimal digits. -/
def digitsValue (digits : List Char) : Nat :=
  digits.foldl (fun value c => 10 * value + (c.toNat - '0'.toNat)) 0

/-- The decimal digits of a number, most significant first. -/
def decimalDigits (n : Nat) : List Char :=
  Nat.toDigits 10 n

/-- Takes an optional sign off a text, and says whether it was a minus. -/
def splitSign : List Char → Bool × List Char
  | '-' :: rest => (true, rest)
  | '+' :: rest => (false, rest)
  | rest => (false, rest)

/-- The value of the digits of an exponent.  One that has reached `2 ^ 16` takes no further
    digits. -/
def exponentValue (digits : List Char) : Nat :=
  digits.foldl
    (fun value c => if value < 0x10000 then 10 * value + (c.toNat - '0'.toNat) else value) 0

/-- The exponent that makes up the rest of a numeral, zero where there is none. -/
def exponent? : List Char → Option Int
  | [] => some 0
  | c :: rest =>
    let (negative, digits) := splitSign rest
    if (c = 'e' || c = 'E') && !digits.isEmpty && digits.all Char.isDigit then
      some (if negative then -(exponentValue digits : Int) else exponentValue digits)
    else none

/-- The decimal of the digits before and after the point, and what follows them. -/
def assemble? (negative : Bool) (whole fraction rest : List Char) : Option Decimal :=
  if whole.isEmpty && fraction.isEmpty then none
  else (exponent? rest).map fun exponent =>
    { negative
      digits := digitsValue (whole ++ fraction)
      exponent := exponent - fraction.length }

/-- The value of an unsigned numeral. -/
def unsigned? (negative : Bool) (text : List Char) : Option Decimal :=
  let whole := text.takeWhile Char.isDigit
  match text.dropWhile Char.isDigit with
  | '.' :: rest =>
    assemble? negative whole (rest.takeWhile Char.isDigit) (rest.dropWhile Char.isDigit)
  | rest => assemble? negative whole [] rest

end Schemata.Numeral
