import Schemata.Text.Blank
import Schemata.Token.Basic

/-!
# Reading one token

`scan` reads the token at the front of a text.  Each class of tokens has its own reader that splits
the text into the part it takes and the part it leaves; a reader that fails says how much it read
before it gave up (`Fault.read`), because reading goes on from there.
-/

namespace Schemata.Scan

/-- Whether a character may begin a word. -/
def isWordStart (c : Char) : Bool :=
  c.isAlpha || c = '_' || c = '$'

/-- Whether a character may continue a word. -/
def isWordRest (c : Char) : Bool :=
  c.isAlphanum || c = '_' || c = '$'

/-- What a backslash followed by this character stands for inside a string. -/
def unescape? : Char → Option Char
  | 'n' => some '\n'
  | 't' => some '\t'
  | 'r' => some '\r'
  | '"' => some '"'
  | '\'' => some '\''
  | '\\' => some '\\'
  | _ => none

/-- Why no token could be read, with the text that was read in the attempt where that is not
    plain from the fault itself. -/
inductive Fault where
  /-- No token begins with this character.  Nothing was read. -/
  | unexpectedCharacter (c : Char)
  /-- The text ended inside a string. -/
  | unterminatedString (read : List Char)
  /-- The text ended inside a comment. -/
  | unterminatedComment (read : List Char)
  /-- A backslash after `before` is followed by a character that it does not escape. -/
  | invalidEscape (before : List Char) (c : Char)
  deriving DecidableEq, Repr

/-- The text that was read before the fault was found. -/
def Fault.read : Fault → List Char
  | unexpectedCharacter _ => []
  | unterminatedString read => read
  | unterminatedComment read => read
  | invalidEscape before _ => before ++ ['\\']

/-- The outcome of reading a token. -/
inductive Outcome where
  | token (kind : TokenKind) (value text : List Char)
  | fault (cause : Fault)
  deriving DecidableEq, Repr

/-- What follows the opening quote of a string, up to its end. -/
inductive StringBody where
  /-- The string is closed; the text ends with the closing quote. -/
  | closed (value text : List Char)
  /-- The text ended first. -/
  | unterminated (read : List Char)
  /-- A backslash after `before` escapes nothing. -/
  | invalidEscape (before : List Char) (c : Char)
  deriving DecidableEq, Repr

/-- A string body with one more character in front, read from `text`. -/
def StringBody.cons (value : Char) (text : List Char) : StringBody → StringBody
  | closed value' text' => closed (value :: value') (text ++ text')
  | unterminated read => unterminated (text ++ read)
  | invalidEscape before c => invalidEscape (text ++ before) c

/-- Reads a string after its opening quote. -/
def stringBody (quote : Char) : List Char → StringBody
  | [] => .unterminated []
  | '\\' :: [] => .unterminated ['\\']
  | '\\' :: c :: rest =>
    match unescape? c with
    | some value => (stringBody quote rest).cons value ['\\', c]
    | none => .invalidEscape [] c
  | c :: rest => if c = quote then .closed [] [c] else (stringBody quote rest).cons c [c]

/-- Reads a string that begins with the given quote. -/
def stringToken (quote : Char) (rest : List Char) : Outcome :=
  match stringBody quote rest with
  | .closed value text => .token .string value (quote :: text)
  | .unterminated read => .fault (.unterminatedString (quote :: read))
  | .invalidEscape before c => .fault (.invalidEscape (quote :: before) c)

/-- The front of a text up to and with the first end mark of a comment. -/
def commentBody? : List Char → Option (List Char)
  | [] => none
  | '*' :: '/' :: _ => some ['*', '/']
  | c :: rest => (commentBody? rest).map (c :: ·)

/-- Reads a comment between marks, after its opening mark. -/
def blockComment (rest : List Char) : Outcome :=
  match commentBody? rest with
  | some body => .token .comment ('/' :: '*' :: body) ('/' :: '*' :: body)
  | none => .fault (.unterminatedComment ('/' :: '*' :: rest))

/-- The fraction of a number at the front of a text: a point and at least one digit, or nothing. -/
def fraction : List Char → List Char
  | '.' :: rest =>
    let digits := rest.takeWhile Char.isDigit
    if digits.isEmpty then [] else '.' :: digits
  | _ => []

/-- The whole part of a number: a zero alone, or all digits up to the next other character. -/
def wholePart : List Char → List Char
  | '0' :: _ => ['0']
  | cs => cs.takeWhile Char.isDigit

/-- The number at the front of a text. -/
def numberText (cs : List Char) : List Char :=
  let whole := wholePart cs
  whole ++ fraction (cs.drop whole.length)

/-- The symbol at the front of a text: the longest one that matches. -/
def symbol? (cs : List Char) : Option (List Char × TokenKind) :=
  TokenKind.symbols.find? fun (spelling, _) => spelling.isPrefixOf cs

/-- A token that means what it says. -/
def plain (kind : TokenKind) (text : List Char) : Outcome :=
  .token kind text text

/-- Reads the token at the front of a text that begins with `c`. -/
def scan (c : Char) (rest : List Char) : Outcome :=
  if Text.isBlank c then plain .whitespace ((c :: rest).takeWhile Text.isBlank)
  else if c = '/' && rest.head? = some '/' then
    plain .comment ((c :: rest).takeWhile (· ≠ '\n'))
  else if c = '/' && rest.head? = some '*' then blockComment rest.tail
  else if c = '"' || c = '\'' then stringToken c rest
  else if c.isDigit then plain .number (numberText (c :: rest))
  else if isWordStart c then
    let word := (c :: rest).takeWhile isWordRest
    plain (TokenKind.ofWord (String.ofList word)) word
  else
    match symbol? (c :: rest) with
    | some (text, kind) => plain kind text
    | none => .fault (.unexpectedCharacter c)

end Schemata.Scan
