import Schemata.Numeral.Binary64

/-!
# Binary numbers in two steps

A `Scaled` keeps of a numeral the leading digits that fit 64 bits, and a power of ten.  Its binary
number is found in steps, each rounded to the nearest value: first the digits, then their product
with the power of ten or their quotient by it.  That is close to the numeral but not always the
value nearest to it, and a numeral just below the end of the range may end up beyond it.

* `Scaled.ofDigits`: the digits that are kept, and the power of ten that goes with them;
* `Scaled.round?`: the binary number, if it is within the range.
-/

namespace Schemata.Numeral

/-- A whole number below `2 ^ 64` times a power of ten. -/
structure Scaled where
  significand : Nat
  exponent : Int
  deriving DecidableEq, Repr

namespace Scaled

/-- The bound below which every significand is, `2 ^ 64`. -/
def significandBound : Nat := 0x10000000000000000

/-- Takes digits into a significand as long as it stays below the bound, and gives those that are
    left. -/
def absorb (significand : Nat) : List Char → Nat × List Char
  | [] => (significand, [])
  | c :: rest =>
    let next := 10 * significand + (c.toNat - '0'.toNat)
    if next < significandBound then absorb next rest else (significand, c :: rest)

/-- The digits before and after the point of a numeral with an exponent.  Digits that do not fit
    count for the size of the number if they stand before the point, and for nothing if after. -/
def ofDigits (whole fraction : List Char) (exponent : Int) : Scaled :=
  let (head, uncounted) := absorb 0 whole
  let (significand, ignored) := absorb head fraction
  ⟨significand, exponent + uncounted.length + ignored.length - fraction.length⟩

/-- The exponent of the largest power of ten within the range of the binary numbers. -/
def maxPower : Nat := 308

/-- The binary number nearest to a power of ten up to the largest one.  It is a whole number. -/
def roundedPower (exponent : Nat) : Nat :=
  match Binary64.ofRatio false (Nat.pow 10 exponent) 1 with
  | .finite _ mantissa exponent =>
    let (num, den) := scaleDown 2 mantissa 1 (-exponent)
    num / den
  | _ => 0

/-- The value nearest to the product of a value and a positive quotient. -/
def times (num den : Nat) : Binary64 → Binary64
  | .finite negative 0 _ => .zero negative
  | .finite negative mantissa exponent =>
    let (n, d) := scaleDown 2 mantissa 1 (-exponent)
    Binary64.ofRatio negative (n * num) (d * den)
  | value => value

/-- The value of the significand scaled by the power of ten.  A quotient by more than the largest
    power is taken in two steps, and by more than its square it is zero. -/
def round (negative : Bool) (value : Scaled) : Binary64 :=
  let down := (-value.exponent).toNat
  if value.significand = 0 || down > 2 * maxPower then .zero negative
  else if value.exponent > maxPower then .infinite negative
  else
    let start := Binary64.ofRatio negative value.significand 1
    if value.exponent ≥ 0 then times (roundedPower value.exponent.toNat) 1 start
    else if down ≤ maxPower then times 1 (roundedPower down) start
    else times 1 (roundedPower (down - maxPower)) (times 1 (roundedPower maxPower) start)

/-- The binary number of a scaled one, unless it is beyond the range. -/
def round? (negative : Bool) (value : Scaled) : Option Binary64 :=
  let rounded := value.round negative
  if rounded.isFinite then some rounded else none

end Scaled

end Schemata.Numeral
