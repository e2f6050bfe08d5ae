import Schemata.Json.Basic
import Schemata.Numeral.Scaled

/-!
# Reading JSON

`Json.read?` reads a text that is exactly one value, with nothing but blanks around it and a bound
on how deeply arrays and objects may be nested.  Each reader takes its piece off the front of the
text and gives the rest, or nothing if the text does not begin that way.
-/

namespace Schemata.Json

/-- A reader of a piece of JSON text. -/
abbrev Reader (α : Type) : Type :=
  List Char → Option (α × List Char)

/-- Whether a character may stand between the parts of a text. -/
def isSpace (c : Char) : Bool :=
  c = ' ' || c = '\t' || c = '\n' || c = '\r'

/-- The text without the blanks at its front. -/
def skipSpace (text : List Char) : List Char :=
  text.dropWhile isSpace

/-- The value of a digit in base 16. -/
def hexDigit? (c : Char) : Option Nat :=
  if '0' ≤ c && c ≤ '9' then some (c.toNat - '0'.toNat)
  else if 'a' ≤ c && c ≤ 'f' then some (c.toNat - 'a'.toNat + 10)
  else if 'A' ≤ c && c ≤ 'F' then some (c.toNat - 'A'.toNat + 10)
  else none

/-- Reads four digits in base 16. -/
def hexUnit? : Reader Nat
  | a :: b :: c :: d :: rest => do
    let high := 16 * (← hexDigit? a) + (← hexDigit? b)
    let low := 16 * (← hexDigit? c) + (← hexDigit? d)
    some (256 * high + low, rest)
  | _ => none

/-- The character that a pair of units stands for, the first of which is a high surrogate. -/
def pairChar? (high low : Nat) : Option Char :=
  if 0xd800 ≤ high && high < 0xdc00 && 0xdc00 ≤ low && low < 0xe000 then
    some (Char.ofNat (0x10000 + 0x400 * (high - 0xd800) + (low - 0xdc00)))
  else none

/-- Reads the digits of an escaped character: one unit, or a pair of surrogates. -/
def unitEscape? (text : List Char) : Option (Char × List Char) := do
  let (unit, rest) ← hexUnit? text
  if 0xd800 ≤ unit && unit < 0xe000 then
    match rest with
    | '\\' :: 'u' :: rest =>
      let (low, rest) ← hexUnit? rest
      return (← pairChar? unit low, rest)
    | _ => none
  else some (Char.ofNat unit, rest)

/-- Reads what follows a backslash in a string. -/
def escape? : Reader Char
  | '"' :: rest => some ('"', rest)
  | '\\' :: rest => some ('\\', rest)
  | '/' :: rest => some ('/', rest)
  | 'b' :: rest => some ('\x08', rest)
  | 'f' :: rest => some ('\x0c', rest)
  | 'n' :: rest => some ('\n', rest)
  | 'r' :: rest => some ('\r', rest)
  | 't' :: rest => some ('\t', rest)
  | 'u' :: rest => unitEscape? rest
  | _ => none

/-- Reads a string after its opening quote, in at most the given number of characters. -/
def stringRest? : Nat → Reader (List Char)
  | 0, _ => none
  | _, [] => none
  | _ + 1, '"' :: rest => some ([], rest)
  | limit + 1, '\\' :: rest => do
    let (c, rest) ← escape? rest
    let (value, rest) ← stringRest? limit rest
    return (c :: value, rest)
  | limit + 1, c :: rest =>
    if c.toNat < 0x20 then none
    else do
      let (value, rest) ← stringRest? limit rest
      return (c :: value, rest)

/-- Reads a string after its opening quote. -/
def string? : Reader String := fun text => do
  let (value, rest) ← stringRest? (text.length + 1) text
  return (String.ofList value, rest)

/-- Splits the digits off the front of a text; there has to be one. -/
def digits? : Reader (List Char) := fun text =>
  let digits := text.takeWhile Char.isDigit
  if digits.isEmpty then none else some (digits, text.dropWhile Char.isDigit)

/-- Reads the whole part of a number, which has no needless zeros. -/
def wholePart? : Reader (List Char)
  | '0' :: rest => some (['0'], rest)
  | text => digits? text

/-- Reads the fraction of a number after its point, or nothing. -/
def fraction? : Reader (List Char)
  | '.' :: rest => digits? rest
  | text => some ([], text)

/-- Reads the exponent of a number with its mark, or nothing. -/
def exponentPart? : Reader (Option Int)
  | c :: rest =>
    if c = 'e' || c = 'E' then do
      let (negative, rest) := Numeral.splitSign rest
      let (digits, rest) ← digits? rest
      let exponent : Int := Numeral.digitsValue digits
      return (some (if negative then -exponent else exponent), rest)
    else some (none, c :: rest)
  | [] => some (none, [])

/-- Whether a whole number is kept as such: it fits 64 bits, with its sign if it has one, and is
    not the negative zero. -/
def isInteger (negative : Bool) (magnitude : Nat) : Bool :=
  if negative then magnitude ≠ 0 && magnitude ≤ 0x8000000000000000
  else magnitude < Numeral.Scaled.significandBound

/-- The number of a numeral in parts.  One without fraction and exponent is a whole number if it
    fits; any other has to be within the range of the binary numbers. -/
def assembleNumber? (negative : Bool) (whole fraction : List Char) (exponent : Option Int) :
    Option Number :=
  let magnitude := Numeral.digitsValue whole
  if fraction.isEmpty && exponent.isNone && isInteger negative magnitude then
    some (.integer (if negative then -magnitude else magnitude))
  else
    ((Numeral.Scaled.ofDigits whole fraction (exponent.getD 0)).round? negative).map .double

/-- Reads a number after its sign. -/
def number? (negative : Bool) : Reader Json := fun text => do
  let (whole, rest) ← wholePart? text
  let (fraction, rest) ← fraction? rest
  let (exponent, rest) ← exponentPart? rest
  return (.number (← assembleNumber? negative whole fraction exponent), rest)

/-- Reads items between commas up to the closing mark, after the opening mark and one item at the
    least.  There are at most as many as the limit. -/
def separated? {α : Type} (close : Char) (item : Reader α) : Nat → Reader (List α)
  | 0, _ => none
  | limit + 1, text => do
    let (value, rest) ← item (skipSpace text)
    match skipSpace rest with
    | c :: rest =>
      if c = close then return ([value], rest)
      else if c = ',' then
        let (values, rest) ← separated? close item limit rest
        return (value :: values, rest)
      else none
    | [] => none

/-- Reads items between commas up to the closing mark, after the opening mark. -/
def sequence? {α : Type} (close : Char) (item : Reader α) : Reader (List α) := fun text =>
  match skipSpace text with
  | [] => none
  | c :: rest =>
    if c = close then some ([], rest) else separated? close item (text.length + 1) (c :: rest)

/-- Reads a member of an object. -/
def member? (value : Reader Json) : Reader (String × Json)
  | '"' :: text => do
    let (key, rest) ← string? text
    match skipSpace rest with
    | ':' :: rest =>
      let (value, rest) ← value (skipSpace rest)
      return ((key, value), rest)
    | _ => none
  | _ => none

/-- Reads a word that stands for a value. -/
def word? (word : String) (value : Json) : Reader Json := fun text =>
  if word.toList.isPrefixOf text then some (value, text.drop word.length) else none

/-- Reads a value that is no container. -/
def scalar? : Reader Json
  | 'n' :: rest => word? "null" .null ('n' :: rest)
  | 't' :: rest => word? "true" (.bool true) ('t' :: rest)
  | 'f' :: rest => word? "false" (.bool false) ('f' :: rest)
  | '"' :: rest => do
    let (value, rest) ← string? rest
    return (.string value, rest)
  | '-' :: rest => number? true rest
  | text => number? false text

/-- Reads a value in which containers are nested at most so deeply. -/
def value? : Nat → Reader Json
  | 0, '[' :: _ => none
  | 0, '\x7b' :: _ => none
  | depth + 1, '[' :: rest => do
    let (items, rest) ← sequence? ']' (value? depth) rest
    return (.array items, rest)
  | depth + 1, '\x7b' :: rest => do
    let (members, rest) ← sequence? '\x7d' (member? (value? depth)) rest
    return (ofMembers members, rest)
  | _, text => scalar? text

/-- The value that makes up a text, with containers nested at most so deeply. -/
def read? (depth : Nat) (text : String) : Option Json := do
  let (value, rest) ← value? depth (skipSpace text.toList)
  if (skipSpace rest).isEmpty then some value else none

end Schemata.Json
