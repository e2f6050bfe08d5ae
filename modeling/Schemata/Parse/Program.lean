import Schemata.Parse.Statement

/-!
# Parsing a source

A `Parser` reads one source with one grammar, as often as it is asked to.  Every reading begins
with splitting the source into tokens, and an error there comes before every other one.

`parse`, `parseProgram` and `parseExpression` are the readings of a fresh parser.
-/

namespace Schemata

/-- The usual bound on nested expressions and blocks. -/
def maxDepth : Nat := 64

/-- A parsed source. -/
structure Program where
  statements : List Node
  /-- The line breaks at which a statement went on although it could have ended. -/
  ambiguities : List Ambiguity

/-- A reader of one source. -/
structure Parser where
  grammar : Grammar
  limit : Nat
  source : String
  /-- The end of the source, known once the source has been split into tokens. -/
  stop : Position
  /-- Where the last reading stopped. -/
  cursor : Cursor

namespace Parser

/-- A parser that has not read yet. -/
def ofSource (grammar : Grammar) (source : String) : Parser :=
  { grammar, limit := maxDepth, source, stop := .start, cursor := Cursor.start [] }

/-- A parser that has not read yet, with a limit of its own. -/
def fresh (grammar : Grammar) (limit : Nat) (source : String) : Parser :=
  { ofSource grammar source with limit }

/-- Splits the source into tokens and goes back to the first of them.  A parser whose source cannot
    be split stays where it was. -/
def load (parser : Parser) : Except ParseError Parser :=
  match Lexeme.ofSource parser.source with
  | .error e => .error (.lexical e)
  | .ok (lexemes, stop) => .ok { parser with stop, cursor := Cursor.start lexemes }

/-- What stays the same while the parser reads. -/
def setting (parser : Parser) : Setting :=
  { grammar := parser.grammar, limit := parser.limit, text := parser.source.toList,
    stop := parser.stop }

/-- Reads the source from its start, and keeps where that stopped. -/
def read {α : Type} (parser : Parser) (body : Setting → Parse α) :
    Except ParseError α × Parser :=
  match parser.load with
  | .error e => (.error e, parser)
  | .ok loaded =>
    match body loaded.setting loaded.cursor with
    | .ok value cursor => (.ok value, { loaded with cursor })
    | .error e cursor => (.error e, { loaded with cursor })

/-- Reads the source as a program, with its ambiguities. -/
def readProgram (parser : Parser) : Except ParseError Program × Parser :=
  parser.read fun setting => do
    let statements ← Parse.program setting
    return { statements, ambiguities := (← get).ambiguities }

/-- Reads the source as a program. -/
def readStatements (parser : Parser) : Except ParseError (List Node) × Parser :=
  let (result, parser) := parser.readProgram
  (result.map (·.statements), parser)

/-- Reads the source as one expression. -/
def readExpression (parser : Parser) : Except ParseError Node × Parser :=
  parser.read Parse.wholeExpression

end Parser

/-- The program of a source under a grammar, with its ambiguities. -/
def parseProgram (grammar : Grammar) (source : String) : Except ParseError Program :=
  (Parser.ofSource grammar source).readProgram.1

/-- The one expression of a source under a grammar. -/
def parseExpression (grammar : Grammar) (source : String) : Except ParseError Node :=
  (Parser.ofSource grammar source).readExpression.1

/-- The statements of a source under the standard grammar. -/
def parse (source : String) : Except ParseError (List Node) :=
  (Parser.ofSource Grammar.standard source).readStatements.1

end Schemata
