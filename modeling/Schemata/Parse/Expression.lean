import Schemata.Parse.Cursor

/-!
# Parsing expressions

An expression is read by climbing the levels of the precedence table (`climb`), down to chains of
members, keys and calls that go on from an atom (`chain`).  What is nested inside an atom, a chain
or a unary operation is read by a parser that is passed in, so that the recursion is all in
`nestedLevel`, on the room left for nesting.
-/

namespace Schemata.Parse

/-- The operator node of a token. -/
def operatorNode (token : Token) : Parse Node :=
  match Operator.ofKind? token.kind with
  | some op => return { Node.ofShape (.operator op) token.position with text := token.text }
  | none => refuse token [.operator]

variable (setting : Setting)

/-- An entry of an object: a key and its value, or a name that is both. -/
def objectEntry (expression : Parse Node) : Parse Node := do
  let key ← do
    match ← peek with
    | some ⟨token, _⟩ =>
      match token.kind with
      | .name =>
        take token
        finish setting (.name token.value) token.position
      | .string =>
        take token
        finish setting (.string token.value) token.position
      | _ =>
        expecting (.token .name)
        expecting (.token .string)
        failHere setting
    | none =>
      expecting (.token .name)
      expecting (.token .string)
      failHere setting
  let value ← do
    if ← eats .colon then expression
    else if key.name?.isSome then pure key
    else failHere setting
  finish setting (.entry key value) key.position

/-- Fails where an expression should begin. -/
def failAtom : Parse Node := do
  expecting .expression
  failHere setting

/-- A literal, a name, or something between brackets, braces or parentheses. -/
def atom (expression : Parse Node) : Parse Node := do
  match ← peek with
  | none => failAtom setting
  | some ⟨token, _⟩ =>
    match token.kind with
    | .number =>
      take token
      finish setting (.number token.value) token.position
    | .string =>
      take token
      finish setting (.string token.value) token.position
    | .boolean =>
      take token
      finish setting (.boolean (token.value == "true")) token.position
    | .name =>
      take token
      finish setting (.name token.value) token.position
    | .leftBracket =>
      take token
      let items ← list setting .rightBracket expression
      finish setting (.array items) token.position
    | .leftBrace =>
      take token
      let entries ← list setting .rightBrace (objectEntry setting expression)
      finish setting (.object entries) token.position
    | .leftParen =>
      take token
      let inner ← expression
      let _ ← expect setting .rightParen
      span setting token.position { inner with parenthesized := true }
    | _ => failAtom setting

/-- The end of a chain, where it could have gone on. -/
def endChain (node : Node) : Parse (ForInStep Node) := do
  expecting (.token .dot)
  expecting (.token .leftBracket)
  expecting (.token .leftParen)
  return .done node

/-- One link of a chain: a member, a key in brackets or a call. -/
def link (expression : Parse Node) (node : Node) : Parse (ForInStep Node) := do
  match ← peek with
  | none => endChain node
  | some lexeme =>
    match lexeme.token.kind with
    | .dot =>
      noteContinuation lexeme
      take lexeme.token
      let name ← expect setting .name
      let member ← finish setting (.name name.value) node.position
      return .yield (member.chainedFrom node)
    | .leftBracket =>
      noteContinuation lexeme
      take lexeme.token
      let key ← expression
      let _ ← expect setting .rightBracket
      return .yield (← span setting node.position (key.bracketed node))
    | .leftParen =>
      noteContinuation lexeme
      take lexeme.token
      let args ← list setting .rightParen expression
      let call ← finish setting (.call args) node.position
      return .yield (call.chainedFrom node)
    | _ => endChain node

/-- An atom and all links that go on from it. -/
def chain (expression : Parse Node) : Parse Node := do
  iterate (link setting expression) (← atom setting expression)

/-- A unary operation whose operator is the given next token, at the given level. -/
def unaryFrom (nested : Nat → Parse Node) (level : Nat) (kind : UnaryKind) (token : Token) :
    Parse Node := do
  take token
  let value ← nested level
  finish setting (.unary kind value) token.position

/-- The right operand of a binary operator at the given level.  It begins a unary operation of a
    looser level if the next token is one of its operators, so that `2 ^ -1` needs no
    parentheses; otherwise it is an operand of the next tighter level. -/
def rightOperand (nested : Nat → Parse Node) (level : Nat) (tighter : Parse Node) :
    Parse Node := do
  require .row (level < setting.grammar.levels.length)
  match ← peek with
  | none => tighter
  | some ⟨token, _⟩ =>
    match setting.grammar.looserUnary? level token.kind with
    | some (looser, kind) => unaryFrom setting nested looser kind token
    | none => tighter

/-- One more operator and right operand of a binary level, if the next token is its operator. -/
def binaryStep (nested : Nat → Parse Node) (level : Nat) (kind : BinaryKind)
    (operators : List TokenKind) (tighter : Parse Node) (left : Node) :
    Parse (ForInStep Node) := do
  match ← peek with
  | none => return .done left
  | some lexeme =>
    if operators.contains lexeme.token.kind then
      noteContinuation lexeme
      take lexeme.token
      let op ← operatorNode lexeme.token
      let right ← rightOperand setting nested level tighter
      return .yield (← finish setting (.binary kind left op right) left.position)
    else return .done left

/-- An expression of the given level and the tighter ones, which are listed with it. -/
def climb (nested : Nat → Parse Node) : Nat → List Level → Parse Node
  | _, [] => chain setting (nested 0)
  | level, .binary kind operators :: tighter => do
    let operand := climb nested (level + 1) tighter
    iterate (binaryStep setting nested level kind operators operand) (← operand)
  | level, .unary operators :: tighter => do
    match ← peek with
    | none => climb nested (level + 1) tighter
    | some ⟨token, _⟩ =>
      match operators.lookup token.kind with
      | some kind => unaryFrom setting nested level kind token
      | none => climb nested (level + 1) tighter

/-- A nested expression of the given level, with room for so many nestings. -/
def nestedLevel : Nat → Nat → Parse Node
  | 0, _ => failTooDeep setting
  | room + 1, level => do
    enter setting room
    climb setting (nestedLevel room) level (setting.grammar.levels.drop level)

/-- A nested expression, with room for so many nestings. -/
def nestedExpression (room : Nat) : Parse Node :=
  nestedLevel setting room 0

end Schemata.Parse
