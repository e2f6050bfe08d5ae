import Schemata.Json.Basic
import Schemata.Numeral.Shortest

/-!
# JSON text

A value is written on one line without blanks (`Json.compact`), or with two spaces of indentation
for each level (`Json.pretty`).  The two differ only in what stands between the parts of a
container, its `Spacing`.
-/

namespace Schemata.Json

/-- Binary numbers are written without an exponent from `10 ^ -5` to below `10 ^ 16`. -/
def numberLayout : Numeral.Layout := ⟨-5, 15⟩

/-- The text of a number.  What is not finite has no text of its own. -/
def Number.print : Number → String
  | integer n => if n < 0 then "-" ++ Nat.repr n.natAbs else Nat.repr n.natAbs
  | double value => (numberLayout.print value).getD "null"

/-- A number below `0x10000` as four digits in base 16. -/
def hexUnit (n : Nat) : List Char :=
  let digits := Nat.toDigits 16 n
  List.replicate (4 - digits.length) '0' ++ digits

/-- How a character is written inside a string. -/
def escapeChar (c : Char) : List Char :=
  if c = '"' then ['\\', '"']
  else if c = '\\' then ['\\', '\\']
  else if c = '\x08' then ['\\', 'b']
  else if c = '\x0c' then ['\\', 'f']
  else if c = '\n' then ['\\', 'n']
  else if c = '\r' then ['\\', 'r']
  else if c = '\t' then ['\\', 't']
  else if c.toNat < 0x20 then '\\' :: 'u' :: hexUnit c.toNat
  else [c]

/-- The text of a string, with its quotes. -/
def quote (value : String) : String :=
  String.ofList ('"' :: (value.toList.flatMap escapeChar ++ ['"']))

/-- What stands between the parts of a container. -/
structure Spacing where
  /-- What begins a part at the given level of nesting. -/
  newLine : Nat → String
  /-- What separates a key from its value. -/
  colon : String

/-- No blanks at all. -/
def Spacing.none : Spacing := ⟨fun _ => "", ":"⟩

/-- Each part on a line of its own, two spaces further in than its container. -/
def Spacing.indented : Spacing :=
  ⟨fun level => String.ofList ('\n' :: List.replicate (2 * level) ' '), ": "⟩

/-- The parts of a container between its two marks. -/
def Spacing.wrap (spacing : Spacing) (level : Nat) (opening closing : String) :
    List String → String
  | [] => opening ++ closing
  | parts =>
    opening ++ ",".intercalate (parts.map (spacing.newLine (level + 1) ++ ·)) ++
      spacing.newLine level ++ closing

mutual

/-- The text of a value at the given level of nesting. -/
def print (spacing : Spacing) (level : Nat) (value : Json) : String :=
  match value with
  | .null => "null"
  | .bool value => if value then "true" else "false"
  | .number value => value.print
  | .string value => quote value
  | .array items => spacing.wrap level "[" "]" (printItems spacing (level + 1) items)
  | .object members =>
    spacing.wrap level "\x7b" "\x7d" (printMembers spacing (level + 1) members)
  termination_by structural value

/-- The texts of the items of an array. -/
def printItems (spacing : Spacing) (level : Nat) (items : List Json) : List String :=
  match items with
  | [] => []
  | item :: rest => item.print spacing level :: printItems spacing level rest
  termination_by structural items

/-- The texts of the members of an object. -/
def printMembers (spacing : Spacing) (level : Nat) (members : List (String × Json)) :
    List String :=
  match members with
  | [] => []
  | member :: rest => printMember spacing level member :: printMembers spacing level rest
  termination_by structural members

/-- The text of a member of an object. -/
def printMember (spacing : Spacing) (level : Nat) (member : String × Json) : String :=
  match member with
  | (key, value) => quote key ++ spacing.colon ++ value.print spacing level
  termination_by structural member

end

/-- The text of a value on one line. -/
def compact (value : Json) : String :=
  value.print Spacing.none 0

/-- The text of a value with indentation. -/
def pretty (value : Json) : String :=
  value.print Spacing.indented 0

end Schemata.Json
