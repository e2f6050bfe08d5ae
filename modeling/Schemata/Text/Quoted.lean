import Schemata.Text.Visible

/-!
# Quoted text in messages

A character or a text is shown between quotes.  Backslashes, the enclosing quote and the common
control characters are escaped by a letter, every hidden character by its code point, and all
else stands for itself.
-/

namespace Schemata.Text

/-- The digits of a number in base 16, lower case, without leading zeros. -/
def hexDigits (n : Nat) : List Char :=
  Nat.toDigits 16 n

/-- How a character is written between two `quote` characters. -/
def quoteChar (quote c : Char) : List Char :=
  if c = quote || c = '\\' then ['\\', c]
  else if c = '\x00' then ['\\', '0']
  else if c = '\t' then ['\\', 't']
  else if c = '\n' then ['\\', 'n']
  else if c = '\r' then ['\\', 'r']
  else if isHidden c then ['\\', 'u', '\x7b'] ++ hexDigits c.toNat ++ ['\x7d']
  else [c]

/-- A text between double quotes. -/
def quoteString (text : String) : String :=
  String.ofList (['"'] ++ text.toList.flatMap (quoteChar '"') ++ ['"'])

/-- A character between single quotes. -/
def quoteOne (c : Char) : String :=
  String.ofList (['\''] ++ quoteChar '\'' c ++ ['\''])

end Schemata.Text
