import Schemata.Text.Quoted
import Schemata.Text.Slice
import Schemata.Token.Scan

/-!
# The lexer

A `Lexer` is a place in a source: the text still to be read, its position, and whether the stream
of tokens has failed.  `nextToken` reads one token from that place whatever happened before,
`next` is the same read as a stream that ends with its first error, and `tokenize` collects the
rest of the stream.
-/

namespace Schemata

/-- An error in splitting a source into tokens. -/
inductive LexError where
  | unexpectedCharacter (c : Char) (position : Position)
  | unterminatedString (position : Position)
  | unterminatedComment (position : Position)
  | invalidEscape (c : Char) (position : Position)
  deriving DecidableEq, Repr

namespace LexError

/-- Where the error is: at the character, at the start of the string or comment that is not
    closed, or at the backslash that escapes nothing. -/
def position : LexError → Position
  | unexpectedCharacter _ p => p
  | unterminatedString p => p
  | unterminatedComment p => p
  | invalidEscape _ p => p

/-- The text of the error. -/
def message : LexError → String
  | unexpectedCharacter c p =>
    "unexpected character " ++ Text.quoteOne c ++ " at " ++ p.describe
  | unterminatedString p => "unterminated string starting at " ++ p.describe
  | unterminatedComment p => "unterminated comment starting at " ++ p.describe
  | invalidEscape c p =>
    "invalid escape sequence \\" ++ String.singleton c ++ " at " ++ p.describe

end LexError

/-- The error that a fault is for a token that starts at the given position. -/
def Scan.Fault.locate (start : Position) : Scan.Fault → LexError
  | unexpectedCharacter c => .unexpectedCharacter c start
  | unterminatedString _ => .unterminatedString start
  | unterminatedComment _ => .unterminatedComment start
  | invalidEscape before c => .invalidEscape c (start.advance before)

/-- A place in a source from which tokens are read. -/
structure Lexer where
  /-- The text still to be read. -/
  rest : List Char
  /-- The position of the next character. -/
  position : Position
  /-- Whether the stream of tokens has ended with an error. -/
  failed : Bool
  deriving DecidableEq, Repr

namespace Lexer

/-- A lexer at the start of a source. -/
def ofSource (source : String) : Lexer :=
  ⟨source.toList, Position.start, false⟩

/-- The lexer after the text `read`, a front part of what it had left. -/
def skip (lexer : Lexer) (read : List Char) : Lexer :=
  { lexer with
    rest := lexer.rest.drop read.length
    position := lexer.position.advance read }

/-- Reads one token; nothing is left to read at the end of the source. -/
def nextToken (lexer : Lexer) : Except LexError (Option Token) × Lexer :=
  match lexer.rest with
  | [] => (.ok none, lexer)
  | c :: rest =>
    match Scan.scan c rest with
    | .token kind value text =>
      (.ok (some
        { kind
          value := String.ofList value
          text := String.ofList text
          position := lexer.position
          lineBreaks := Text.lineBreaks text }), lexer.skip text)
    | .fault cause => (.error (cause.locate lexer.position), lexer.skip cause.read)

/-- Reads the next item of the token stream, which ends with its first error. -/
def next (lexer : Lexer) : Option (Except LexError Token) × Lexer :=
  if lexer.failed then (none, lexer)
  else
    match lexer.nextToken with
    | (.ok none, after) => (none, after)
    | (.ok (some token), after) => (some (.ok token), after)
    | (.error e, after) => (some (.error e), { after with failed := true })

/-- The items of the token stream, at most `limit` of them, and the lexer after them. -/
def collect : Nat → Lexer → List (Except LexError Token) × Lexer
  | 0, lexer => ([], lexer)
  | limit + 1, lexer =>
    match lexer.next with
    | (none, after) => ([], after)
    | (some item, after) =>
      let (items, last) := collect limit after
      (item :: items, last)

/-- All remaining items of the token stream, and the lexer after them.  Every token takes at least
    one character, so the number of characters bounds the number of tokens, and one more item
    may be an error. -/
def run (lexer : Lexer) : List (Except LexError Token) × Lexer :=
  collect (lexer.rest.length + 1) lexer

/-- The remaining tokens, or the error that the stream ends with. -/
def tokenize (lexer : Lexer) : Except LexError (List Token) :=
  lexer.run.1.mapM id

end Lexer

end Schemata
