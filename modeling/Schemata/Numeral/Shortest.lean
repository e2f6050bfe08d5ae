import Schemata.Numeral.Binary64

/-!
# The shortest decimal of a binary number

A binary number is written with the fewest digits that read back as the same number, and among
those with the ones nearest to it.  For each number of digits only the two neighbours of the
number on that decimal grid need to be tried: if a point of the grid reads back, one of them does.
-/

namespace Schemata.Numeral

/-- A positive binary number as a multiple of a quarter of its last place, with the ends of the
    interval that rounds to it as multiples of the same unit. -/
structure Interval where
  low : Nat
  value : Nat
  high : Nat
  /-- Whether the ends round to the number too. -/
  closed : Bool
  /-- The exponent of two of the unit. -/
  unit : Int

/-- The interval of the reals that round to a mantissa times a power of two.  Below a power of two
    the next smaller number is only half as far away. -/
def Interval.of (mantissa : Nat) (exponent : Int) : Interval :=
  let narrow := mantissa = Binary64.leadingBit && exponent > Binary64.minExponent
  { low := 4 * mantissa - (if narrow then 1 else 2)
    value := 4 * mantissa
    high := 4 * mantissa + 2
    closed := mantissa % 2 = 0
    unit := exponent - 2 }

/-- The power of ten of the leading digit of a positive quotient. -/
def leadingPower (num den : Nat) : Int :=
  let guess : Int := (decimalDigits num).length - (decimalDigits den).length
  let (n, d) := scaleDown 10 num den guess
  if n ≥ d then guess else guess - 1

/-- Whether the grid point `digits`, in steps of `num / den` units, rounds to the number. -/
def Interval.holds (interval : Interval) (digits num den : Nat) : Bool :=
  let low := interval.low * den
  let high := interval.high * den
  let point := digits * num
  if interval.closed then low ≤ point && point ≤ high else low < point && point < high

/-- The grid point that rounds to the number and is nearest to it, among its two neighbours on
    the grid with steps of `num / den` units; of two equally near ones the even one. -/
def Interval.nearest? (interval : Interval) (num den : Nat) : Option Nat :=
  let below := interval.value * den / num
  let above := below + 1
  let lowGap := interval.value * den - below * num
  let highGap := above * num - interval.value * den
  match interval.holds below num den, interval.holds above num den with
  | true, true =>
    some (if lowGap < highGap || (lowGap = highGap && below % 2 = 0) then below else above)
  | true, false => some below
  | false, true => some above
  | false, false => none

/-- Digits times a power of ten. -/
structure Digits where
  digits : Nat
  exponent : Int
  deriving DecidableEq, Repr

/-- The shortest digits with at least `count` of them, out of at most `tries` more counts. -/
def Interval.search (interval : Interval) (leading : Int) : Nat → Nat → Digits
  | 0, _ => ⟨interval.value, 0⟩
  | tries + 1, count =>
    let exponent := leading - count + 1
    -- One step of the grid is `10 ^ exponent`, which is `num / den` units.
    let (unitNum, unitDen) := scaleDown 2 1 1 (-interval.unit)
    let (num, den) := scaleDown 10 unitDen unitNum (-exponent)
    match interval.nearest? num den with
    | some digits => ⟨digits, exponent⟩
    | none => interval.search leading tries (count + 1)

/-- The shortest digits that read back as a mantissa times a power of two, not zero. -/
def shortest (mantissa : Nat) (exponent : Int) : Digits :=
  let interval := Interval.of mantissa exponent
  let (num, den) := scaleDown 2 mantissa 1 (-exponent)
  interval.search (leadingPower num den) 17 1

/-- How the digits of a number are laid out. -/
structure Layout where
  /-- The least power of the leading digit that is written without an exponent. -/
  plainFrom : Int
  /-- The largest power of the leading digit that is written without an exponent. -/
  plainTo : Int

/-- The significant digits: those of the number without the zeros at its end. -/
def significant (digits : Nat) : List Char :=
  ((decimalDigits digits).reverse.dropWhile (· = '0')).reverse

/-- Digits with the point after the leading one and the exponent with its sign. -/
def scientific (digits : List Char) (power : Int) : List Char :=
  digits.take 1 ++ (if digits.length > 1 then '.' :: digits.drop 1 else []) ++
    ['e', if power < 0 then '-' else '+'] ++ decimalDigits power.natAbs

/-- Digits with the point in its place and at least one digit on either side of it. -/
def plain (digits : List Char) (power : Int) : List Char :=
  if power < 0 then
    ['0', '.'] ++ List.replicate (-power - 1).toNat '0' ++ digits
  else
    let whole := power.toNat + 1
    digits.take whole ++ List.replicate (whole - digits.length) '0' ++ ['.'] ++
      (if digits.length > whole then digits.drop whole else ['0'])

/-- The text of a finite value. -/
def Layout.print (layout : Layout) : Binary64 → Option String
  | .finite negative mantissa exponent =>
    let sign := if negative then "-" else ""
    if mantissa = 0 then some (sign ++ "0.0")
    else
      let found := shortest mantissa exponent
      let power := found.exponent + (decimalDigits found.digits).length - 1
      let digits := significant found.digits
      some (sign ++ String.ofList
        (if layout.plainFrom ≤ power && power ≤ layout.plainTo then plain digits power
         else scientific digits power))
  | _ => none

end Schemata.Numeral
