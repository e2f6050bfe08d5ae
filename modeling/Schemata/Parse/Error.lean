import Schemata.Text.Excerpt
import Schemata.Token.Lexer

/-!
# Errors of parsing

A `ParseError` says what went wrong and where.  Its message quotes the source line, so that it is
written with the source at hand.
-/

namespace Schemata

/-- Something that would have been accepted where parsing failed. -/
inductive Expectation where
  | token (kind : TokenKind)
  | expression
  | statement
  | operator
  /-- A name with this spelling. -/
  | word (text : String)
  deriving DecidableEq, Repr

/-- How an expectation is named in messages. -/
def Expectation.describe : Expectation → String
  | token kind => kind.describe
  | expression => "expression"
  | statement => "statement"
  | operator => "operator"
  | word text => text

/-- An error in parsing a source. -/
inductive ParseError where
  | lexical (error : LexError)
  | unexpectedToken (kind : TokenKind) (value : String) (position : Position)
      (expected : List Expectation)
  | unexpectedEnd (position : Position) (expected : List Expectation)
  | invalidTarget (position : Position)
  | tooDeep (limit : Nat) (position : Position)
  deriving DecidableEq, Repr

namespace ParseError

/-- Where the error is. -/
def position : ParseError → Position
  | lexical error => error.position
  | unexpectedToken _ _ p _ => p
  | unexpectedEnd p _ => p
  | invalidTarget p => p
  | tooDeep _ p => p

/-- What would have been accepted instead. -/
def expected : ParseError → List Expectation
  | unexpectedToken _ _ _ expected => expected
  | unexpectedEnd _ expected => expected
  | _ => []

/-- The end of a message that lists what would have been accepted. -/
def alternatives (expected : List Expectation) : String :=
  if expected.isEmpty then ""
  else ", expected one of: " ++ ", ".intercalate (expected.map Expectation.describe)

/-- The text of the error for the source it was found in. -/
def message (source : String) (error : ParseError) : String :=
  match error with
  | lexical cause => cause.message ++ "\n" ++ Text.excerpt source cause.position
  | unexpectedToken kind value p expected =>
    "syntax error at " ++ p.describe ++ ": unexpected " ++ kind.describe ++ " token " ++
      Text.quoteString value ++ alternatives expected ++ "\n" ++ Text.excerpt source p
  | unexpectedEnd p expected =>
    "syntax error at " ++ p.describe ++ ": unexpected end of input" ++ alternatives expected
  | invalidTarget p =>
    "invalid assignment target at " ++ p.describe ++ "\n" ++ Text.excerpt source p
  | tooDeep limit p =>
    "nesting deeper than " ++ Nat.repr limit ++ " levels at " ++ p.describe

end ParseError

end Schemata
