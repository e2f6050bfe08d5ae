import Schemata.Grammar
import Schemata.Node.Basic
import Schemata.Parse.Error

/-!
# The parsing monad

A parse reads `Lexeme`s, the tokens of a source without its trivia.  Its state is a `Cursor`: what
is left to read, and what has been noted on the way.  A step that looks for a token and does not
find it notes what it expected; taking a token forgets these notes, so that at a failure they say
what the next token could have been.

Loops run through two combinators.  `gather` collects the items of a sequence and `iterate` grows
one value; both bound their rounds by the number of lexemes left, which is enough because every
round but the last takes one.

Some steps are only allowed where something else has been seen or done before.  Taken elsewhere,
such a step still has a result, but it notes a `Fault`.
-/

namespace Schemata

/-- A token that is not trivia. -/
structure Lexeme where
  token : Token
  /-- Whether there is a newline between this token and the one before it. -/
  afterBreak : Bool
  deriving DecidableEq, Repr

namespace Lexeme

/-- The lexemes among tokens; `broken` says whether a newline came before the first token. -/
def ofTokens (broken : Bool) : List Token → List Lexeme
  | [] => []
  | token :: rest =>
    if token.kind.isTrivia then ofTokens (broken || token.lineBreaks > 0) rest
    else ⟨token, broken⟩ :: ofTokens false rest

/-- The lexemes of a source and the position of its end. -/
def ofSource (source : String) : Except LexError (List Lexeme × Position) :=
  let (items, last) := (Lexer.ofSource source).run
  match items.mapM id with
  | .ok tokens => .ok (ofTokens false tokens, last.position)
  | .error e => .error e

end Lexeme

/-- A line break that could have ended a statement, before a token that went on with it. -/
structure Ambiguity where
  position : Position
  token : TokenKind
  deriving DecidableEq, Repr

/-- What stays the same during a parse. -/
structure Setting where
  grammar : Grammar
  /-- The number of nested expressions and blocks that may be open together. -/
  limit : Nat
  /-- The source. -/
  text : List Char
  /-- The position of the end of the source. -/
  stop : Position

/-- A step that is not allowed where it was taken. -/
inductive Fault where
  /-- A token was taken that was not the next one. -/
  | token
  /-- A row was looked for beyond the end of the precedence table. -/
  | row
  /-- Something nested began while nothing was counted as open, so that its end has nothing to
      count back. -/
  | depth
  /-- A loop used up its rounds. -/
  | rounds
  deriving DecidableEq, Repr

/-- The faults with one more, unless what is required holds. -/
def Fault.unless (fault : Fault) (required : Prop) [Decidable required] (faults : List Fault) :
    List Fault :=
  if required then faults else faults ++ [fault]

/-- What a parse has left to read, and what it has noted. -/
structure Cursor where
  /-- The lexemes not yet taken. -/
  rest : List Lexeme
  /-- The offset at which the last taken token ends. -/
  lastEnd : Nat
  /-- What the next token could have been, in the order in which it was looked for. -/
  expected : List Expectation
  /-- The ambiguous line breaks so far. -/
  ambiguities : List Ambiguity
  /-- The positions at which more nested expressions and blocks were begun together than ever
      before, one for each number of them. -/
  descents : List Position
  /-- The steps so far that were not allowed. -/
  faults : List Fault
  deriving DecidableEq, Repr

namespace Cursor

/-- The cursor before the first of the given lexemes. -/
def start (lexemes : List Lexeme) : Cursor :=
  { rest := lexemes, lastEnd := 0, expected := [], ambiguities := [], descents := [],
    faults := [] }

/-- The largest number of nested expressions and blocks that were open together so far. -/
def deepest (cursor : Cursor) : Nat :=
  cursor.descents.length

/-- The position of the next token, or of the end of the source. -/
def position (setting : Setting) (cursor : Cursor) : Position :=
  (cursor.rest.head?.map (·.token.position)).getD setting.stop

/-- The cursor where a nested expression or block begins, the given number of which are then open
    together. -/
def descend (setting : Setting) (depth : Nat) (cursor : Cursor) : Cursor :=
  { cursor with
    descents :=
      if cursor.deepest < depth then cursor.descents ++ [cursor.position setting]
      else cursor.descents
    faults := Fault.depth.unless (0 < depth) cursor.faults }

/-- The cursor after a step that is allowed if what is required holds. -/
def require (fault : Fault) (required : Prop) [Decidable required] (cursor : Cursor) : Cursor :=
  { cursor with faults := fault.unless required cursor.faults }

/-- An allowed step notes nothing. -/
theorem require_of {fault : Fault} {required : Prop} [Decidable required] (h : required)
    (cursor : Cursor) : cursor.require fault required = cursor := by
  rw [require, Fault.unless, if_pos h]

end Cursor

/-- A parse of a piece of a source. -/
abbrev Parse (α : Type) : Type :=
  EStateM ParseError Cursor α

namespace Parse

variable {α : Type}

/-- The next lexeme. -/
def peek : Parse (Option Lexeme) :=
  return (← get).rest.head?

/-- Takes the next lexeme, whose token is given. -/
def take (token : Token) : Parse Unit :=
  modify fun cursor =>
    { cursor with
      rest := cursor.rest.tail
      lastEnd := token.position.offset + Text.byteSize token.text.toList
      expected := []
      faults := Fault.token.unless (cursor.rest.head?.map (·.token) = some token) cursor.faults }

/-- Notes a fault unless what is required holds. -/
def require (fault : Fault) (required : Prop) [Decidable required] : Parse Unit :=
  modify (·.require fault required)

/-- Notes something that the next token could have been. -/
def expecting (what : Expectation) : Parse Unit :=
  modify fun cursor =>
    if cursor.expected.contains what then cursor
    else { cursor with expected := cursor.expected ++ [what] }

/-- The next token if it is of the given kind; otherwise notes that it could have been. -/
def check? (kind : TokenKind) : Parse (Option Token) := do
  match ← peek with
  | some lexeme =>
    if lexeme.token.kind = kind then return some lexeme.token
    else
      expecting (.token kind)
      return none
  | none =>
    expecting (.token kind)
    return none

/-- The next token if it is of one of the given kinds, which are tried in order. -/
def checkAny? : List TokenKind → Parse (Option Token)
  | [] => return none
  | kind :: kinds => do
    match ← check? kind with
    | some token => return some token
    | none => checkAny? kinds

/-- Takes the next token if it is of the given kind. -/
def eat? (kind : TokenKind) : Parse (Option Token) := do
  match ← check? kind with
  | some token =>
    take token
    return some token
  | none => return none

/-- Takes the next token if it is of the given kind, and says whether it did. -/
def eats (kind : TokenKind) : Parse Bool :=
  return (← eat? kind).isSome

/-- Notes an ambiguity if there is a newline before the lexeme. -/
def noteContinuation (lexeme : Lexeme) : Parse Unit :=
  if lexeme.afterBreak then
    modify fun cursor =>
      { cursor with
        ambiguities := cursor.ambiguities ++ [⟨lexeme.token.position, lexeme.token.kind⟩] }
  else pure ()

/-- Fails at a token in whose place something else was needed. -/
def refuse (token : Token) (expected : List Expectation) : Parse α :=
  throw (.unexpectedToken token.kind token.value token.position expected)

/-- What a round of `gather` found. -/
inductive Round (α : Type) where
  /-- An item, after which there may be more. -/
  | more (item : α)
  /-- The last item. -/
  | last (item : α)
  /-- The end of the sequence. -/
  | done

/-- The items of at most the given number of rounds. -/
def gatherWithin (round : Parse (Round α)) : Nat → Parse (List α)
  | 0 => do
    require .rounds False
    return []
  | rounds + 1 => do
    match ← round with
    | .more item => return item :: (← gatherWithin round rounds)
    | .last item => return [item]
    | .done => return []

/-- The items of a sequence; a round that finds `more` has taken a token. -/
def gather (round : Parse (Round α)) : Parse (List α) := do
  gatherWithin round ((← get).rest.length + 1)

/-- Grows a value by at most the given number of steps. -/
def iterateWithin (step : α → Parse (ForInStep α)) : Nat → α → Parse α
  | 0, value => do
    require .rounds False
    return value
  | rounds + 1, value => do
    match ← step value with
    | .yield value => iterateWithin step rounds value
    | .done value => return value

/-- Grows a value until a step is the last; a step that yields has taken a token. -/
def iterate (step : α → Parse (ForInStep α)) (value : α) : Parse α := do
  iterateWithin step ((← get).rest.length + 1) value

/-- Takes all semicolons that come next. -/
def skipSemicolons : Parse Unit :=
  iterate (fun _ => return if ← eats .semicolon then .yield () else .done ()) ()

variable (setting : Setting)

/-- Fails at the next token, or at the end of the source, with what was expected there. -/
def failHere : Parse α := do
  let cursor ← get
  match cursor.rest.head? with
  | some lexeme => refuse lexeme.token cursor.expected
  | none => throw (.unexpectedEnd setting.stop cursor.expected)

/-- Takes the next token, which has to be of the given kind. -/
def expect (kind : TokenKind) : Parse Token := do
  match ← eat? kind with
  | some token => return token
  | none => failHere setting

/-- Fails because nothing more may be nested at this place. -/
def failTooDeep : Parse α := do
  throw (.tooDeep setting.limit ((← get).position setting))

/-- Notes that a nested expression or block begins with room for `room` more inside it. -/
def enter (room : Nat) : Parse Unit :=
  modify (·.descend setting (setting.limit - room))

/-- The node with its span: from the given position to the end of the last taken token. -/
def span (start : Position) (node : Node) : Parse Node := do
  let text := Text.slice setting.text start.offset (← get).lastEnd
  return { node with
    position := start
    lineBreaks := Text.lineBreaks text
    text := String.ofList text }

/-- A node of the given shape, from the given position to the end of the last taken token. -/
def finish (shape : Shape Node) (start : Position) : Parse Node :=
  span setting start (Node.ofShape shape start)

/-- Items between commas up to the closing token; a comma may come after the last one. -/
def list (close : TokenKind) (item : Parse α) : Parse (List α) :=
  gather do
    if ← eats close then return .done
    let value ← item
    if ← eats .comma then return .more value
    let _ ← expect setting close
    return .last value

end Parse

end Schemata
