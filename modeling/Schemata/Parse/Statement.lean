import Schemata.Parse.Expression

/-!
# Parsing statements and declarations

Each statement parser takes the parsers for what is nested in it, an expression and a block.
`nestedBlock` ties the knot, on the room left for nesting.
-/

namespace Schemata.Parse

variable (setting : Setting)

/-- A type: a name, or a name and a pair of brackets for a list. -/
def typeName : Parse String := do
  let name ← expect setting .name
  if ← eats .leftBracket then
    let _ ← expect setting .rightBracket
    return name.value ++ "[]"
  else return name.value

/-- A parameter of a function: a name, whether it may be left out, and its type. -/
def param : Parse Node := do
  let name ← expect setting .name
  let optional ← eats .question
  let type ← do
    if ← eats .colon then pure (some (← typeName setting)) else pure none
  finish setting (.param name.value type optional) name.position

/-- A field of an index directive: a name, or a name and a direction in brackets. -/
def indexField : Parse IndexField := do
  if ← eats .leftBracket then
    let name ← expect setting .name
    let direction ← do
      if ← eats .comma then
        let word ← expect setting .name
        match Direction.ofWord? word.value with
        | some direction => pure (some direction)
        | none => refuse word [.word "asc", .word "desc"]
      else pure none
    let _ ← expect setting .rightBracket
    return ⟨name.value, direction⟩
  else
    let name ← expect setting .name
    return ⟨name.value, none⟩

/-- An index directive, whose at sign is the given next token. -/
def index (token : Token) : Parse Node := do
  take token
  let directive ← expect setting .name
  if directive.value ≠ "index" then refuse directive [.word "index"]
  let _ ← expect setting .leftParen
  let fields ← list setting .rightParen (indexField setting)
  finish setting (.index fields) token.position

/-- A field of a collection, whose name is the given next token. -/
def field (token : Token) : Parse Node := do
  take token
  let _ ← eats .colon
  let type ← typeName setting
  let required ← eats .not
  finish setting (.field token.value type required) token.position

/-- A function, whose keyword is the given next token. -/
def function (block : Parse (List Node)) (token : Token) : Parse Node := do
  take token
  let name ← expect setting .name
  let _ ← expect setting .leftParen
  let params ← list setting .rightParen (param setting)
  let body ← block
  finish setting (.function name.value params body) token.position

/-- An item of a collection: a function, an index or a field. -/
def collectionItem (block : Parse (List Node)) : Parse Node := do
  let unknown : Parse Node := do
    expecting (.token (.keyword .function))
    expecting (.token .atSign)
    expecting (.token .name)
    failHere setting
  match ← peek with
  | none => unknown
  | some ⟨token, _⟩ =>
    match token.kind with
    | .keyword .function => function setting block token
    | .atSign => index setting token
    | .name => field setting token
    | _ => unknown

/-- A collection, whose keyword is the given next token. -/
def collection (block : Parse (List Node)) (token : Token) : Parse Node := do
  take token
  let name ← expect setting .name
  let _ ← expect setting .leftBrace
  skipSemicolons
  let items ← gather do
    if (← check? .rightBrace).isSome then return .done
    let item ← collectionItem setting block
    skipSemicolons
    return .more item
  let _ ← expect setting .rightBrace
  finish setting (.collection name.value items) token.position

/-- A further clause of a conditional.  The one without a condition is the last. -/
def clause (expression : Parse Node) (block : Parse (List Node)) : Parse (Round Node) := do
  match ← eat? (.keyword .elseWord) with
  | none => return .done
  | some token =>
    if ← eats (.keyword .ifWord) then
      let condition ← expression
      let body ← block
      return .more (← finish setting (.elseIf condition body) token.position)
    else
      let body ← block
      return .last (← finish setting (.elseClause body) token.position)

/-- A conditional, whose keyword is the given next token. -/
def ifStmt (expression : Parse Node) (block : Parse (List Node)) (token : Token) :
    Parse Node := do
  take token
  let condition ← expression
  let body ← block
  let clauses ← gather (clause setting expression block)
  finish setting (.ifStmt condition body clauses) token.position

/-- A constant, whose keyword is the given next token. -/
def constDecl (expression : Parse Node) (token : Token) : Parse Node := do
  take token
  let name ← expect setting .name
  let _ ← expect setting .assign
  let value ← expression
  finish setting (.constDecl name.value value) token.position

/-- A variable, whose keyword is the given next token. -/
def letDecl (expression : Parse Node) (token : Token) : Parse Node := do
  take token
  let name ← expect setting .name
  let value ← do
    if ← eats .assign then pure (some (← expression)) else pure none
  finish setting (.letDecl name.value value) token.position

/-- A return, whose keyword is the given next token.  It has a value unless its block, its
    statement or the source ends there. -/
def returnStmt (expression : Parse Node) (token : Token) : Parse Node := do
  take token
  let value ← do
    match ← peek with
    | none => pure none
    | some lexeme =>
      if lexeme.token.kind = .rightBrace || lexeme.token.kind = .semicolon then pure none
      else pure (some (← expression))
  finish setting (.returnStmt value) token.position

/-- An expression, or an assignment to it. -/
def expressionStmt (expression : Parse Node) : Parse Node := do
  let left ← expression
  match ← checkAny? [.assign, .addAssign, .subAssign] with
  | none => return left
  | some token =>
    if !left.isAssignable then throw (.invalidTarget left.position)
    take token
    let op ← operatorNode token
    let right ← expression
    finish setting (.assign left op right) left.position

/-- A statement as it may stand in a block. -/
def statement (expression : Parse Node) (block : Parse (List Node)) : Parse Node := do
  match ← peek with
  | none => expressionStmt setting expression
  | some ⟨token, _⟩ =>
    match token.kind with
    | .keyword .ifWord => ifStmt setting expression block token
    | .keyword .constWord => constDecl setting expression token
    | .keyword .letWord => letDecl setting expression token
    | .keyword .returnWord => returnStmt setting expression token
    | _ => expressionStmt setting expression

/-- Statements between braces. -/
def braced (statement : Parse Node) : Parse (List Node) := do
  let _ ← expect setting .leftBrace
  skipSemicolons
  let body ← gather do
    if (← check? .rightBrace).isSome then return .done
    if (← peek).isNone then failHere setting
    let node ← statement
    skipSemicolons
    return .more node
  let _ ← expect setting .rightBrace
  return body

/-- A nested block, with room for so many nestings. -/
def nestedBlock : Nat → Parse (List Node)
  | 0 => failTooDeep setting
  | room + 1 => do
    enter setting room
    braced setting (statement setting (nestedExpression setting room) (nestedBlock room))

/-- A statement as it may stand at the top of a program. -/
def topStatement : Parse Node := do
  let block := nestedBlock setting setting.limit
  let other := statement setting (nestedExpression setting setting.limit) block
  match ← peek with
  | none => other
  | some ⟨token, _⟩ =>
    match token.kind with
    | .keyword .collection => collection setting block token
    | .keyword .function => function setting block token
    | _ => other

/-- The statements of a program, of which there has to be one. -/
def program : Parse (List Node) := do
  skipSemicolons
  let nodes ← gather do
    if (← peek).isNone then return .done
    let node ← topStatement setting
    skipSemicolons
    return .more node
  if nodes.isEmpty then
    expecting .statement
    failHere setting
  return nodes

/-- An expression that makes up a whole source. -/
def wholeExpression : Parse Node := do
  let node ← nestedExpression setting setting.limit
  if (← peek).isSome then failHere setting
  return node

end Schemata.Parse
