import Schemata.Position

/-!
# Source excerpts

An error message quotes the source line it is about and puts a caret under the column.
-/

namespace Schemata.Text

/-- A line without the carriage return that stood before its newline. -/
def dropReturn (line : List Char) : List Char :=
  if line.getLast? = some '\r' then line.dropLast else line

/-- The first line of a text.  Only a newline ends a line; a carriage return directly before it
    belongs to the line end, one at the very end of the text does not. -/
def firstLine (text : List Char) : List Char :=
  let line := text.takeWhile (· ≠ '\n')
  if line.length < text.length then dropReturn line else line

/-- The line of a text with the given number, counting from 0; empty beyond the last one. -/
def lineAt : Nat → List Char → List Char
  | 0, text => firstLine text
  | n + 1, text =>
    if text.isEmpty then [] else lineAt n (text.dropWhile (· ≠ '\n')).tail

/-- A run of spaces. -/
def spaces (n : Nat) : String :=
  String.ofList (List.replicate n ' ')

/-- The source line of a position after its number, and below it a caret under the column. -/
def excerpt (source : String) (position : Position) : String :=
  let number := Nat.repr position.line
  let line := String.ofList (lineAt (position.line - 1) source.toList)
  number ++ " | " ++ line ++ "\n" ++ spaces number.length ++ " | " ++
    spaces (position.col - 1) ++ "^"

end Schemata.Text
