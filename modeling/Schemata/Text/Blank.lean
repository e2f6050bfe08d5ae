/-!
# Blank characters

The characters with the Unicode property `White_Space`, which separate tokens.
-/

namespace Schemata.Text

/-- The code point ranges of `White_Space`, both ends included, in ascending order. -/
def blankRanges : List (Nat × Nat) :=
  [(0x9, 0xd), (0x20, 0x20), (0x85, 0x85), (0xa0, 0xa0), (0x1680, 0x1680), (0x2000, 0x200a),
   (0x2028, 0x2029), (0x202f, 0x202f), (0x205f, 0x205f), (0x3000, 0x3000)]

/-- Whether a code point lies in one of the ranges. -/
def inRanges (ranges : List (Nat × Nat)) (n : Nat) : Bool :=
  ranges.any fun (low, high) => low ≤ n && n ≤ high

/-- Whether a character has the property `White_Space`. -/
def isBlank (c : Char) : Bool :=
  inRanges blankRanges c.toNat

example : "\t\n\r \u00a0\u2003\u3000".toList.all isBlank = true := by decide

example : "aZ0_\u200b\ufeff".toList.any isBlank = false := by decide

end Schemata.Text
