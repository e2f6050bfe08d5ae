import Schemata.Operator

/-!
# Syntax trees

A `Node` is a piece of a program.  What the piece is, with its parts, is its `Shape`; around it a
node keeps where it was written and three marks that any expression may carry: that it stood in
parentheses, that it was reached through brackets, and the expression it is chained from.

Chains point backwards: `a.b(c)[0]` is the number `0` in brackets, whose receiver is the call with
argument `c`, whose receiver is the name `b`, whose receiver is the name `a`.

`Shape` leaves the type of its parts open: one level of a tree can be spoken of without the levels
below it.
-/

namespace Schemata

/-- The order in which an index sorts a field. -/
inductive Direction where
  | ascending
  | descending
  deriving DecidableEq, Repr, Inhabited

namespace Direction

/-- How a direction is written. -/
def word : Direction → String
  | ascending => "asc"
  | descending => "desc"

/-- The direction written by a word. -/
def ofWord? (text : String) : Option Direction :=
  [ascending, descending].find? (·.word == text)

/-- A direction is found by its word. -/
@[simp] theorem ofWord?_word (direction : Direction) :
    ofWord? direction.word = some direction := by
  cases direction <;> decide

end Direction

/-- A field of an index directive. -/
structure IndexField where
  name : String
  /-- The direction, where the source gives one. -/
  direction : Option Direction
  deriving DecidableEq, Repr, Inhabited

/-- The direction in which the index sorts: ascending unless the source says otherwise. -/
def IndexField.order (field : IndexField) : Direction :=
  field.direction.getD .ascending

/-- What a node is, over parts of type `ν`. -/
inductive Shape (ν : Type) where
  | array (items : List ν)
  | object (entries : List ν)
  /-- An entry of an object. -/
  | entry (key value : ν)
  /-- A number, kept as it was written. -/
  | number (literal : String)
  | string (value : String)
  | boolean (value : Bool)
  | binary (kind : BinaryKind) (left op right : ν)
  /-- The operator part of a binary expression or an assignment. -/
  | operator (op : Operator)
  | unary (kind : UnaryKind) (value : ν)
  | name (name : String)
  /-- A call of the receiver. -/
  | call (args : List ν)
  /-- A key in brackets that carries marks of its own. -/
  | computed (key : ν)
  | returnStmt (value : Option ν)
  | constDecl (name : String) (value : ν)
  | letDecl (name : String) (value : Option ν)
  | assign (left op right : ν)
  /-- A conditional with its further clauses in source order. -/
  | ifStmt (condition : ν) (body clauses : List ν)
  | elseIf (condition : ν) (body : List ν)
  | elseClause (body : List ν)
  | function (name : String) (params body : List ν)
  | param (name : String) (type : Option String) (optional : Bool)
  | field (name type : String) (required : Bool)
  | index (fields : List IndexField)
  | collection (name : String) (items : List ν)
  deriving DecidableEq, Repr

instance {ν : Type} : Inhabited (Shape ν) := ⟨.name ""⟩

/-- A piece of a program. -/
structure Node where
  shape : Shape Node
  /-- Where the piece begins. -/
  position : Position
  /-- The number of newlines in the text. -/
  lineBreaks : Nat
  /-- The piece of source that was read, empty for a node that was not read from one. -/
  text : String
  /-- Whether the piece stood in parentheses. -/
  parenthesized : Bool
  /-- Whether the piece was reached through brackets. -/
  bracket : Bool
  /-- The expression that the piece is chained from. -/
  receiver : Option Node
  deriving Repr

namespace Shape

variable {ν : Type}

/-- The name of a shape in dumps and patterns. -/
def label : Shape ν → String
  | array _ => "array"
  | object _ => "object"
  | entry _ _ => "objectKeyValue"
  | number _ => "number"
  | string _ => "string"
  | boolean _ => "boolean"
  | binary kind _ _ _ => kind.label
  | operator _ => "operator"
  | unary kind _ => kind.label
  | name _ => "name"
  | call _ => "call"
  | computed _ => "computed"
  | returnStmt _ => "return"
  | constDecl _ _ => "const"
  | letDecl _ _ => "let"
  | assign _ _ _ => "assign"
  | ifStmt _ _ _ => "if"
  | elseIf _ _ => "elseif"
  | elseClause _ => "else"
  | function _ _ _ => "function"
  | param _ _ _ => "param"
  | field _ _ _ => "field"
  | index _ => "index"
  | collection _ _ => "collection"

end Shape

namespace Node

/-- A node of the given shape, with no source text and no marks. -/
def ofShape (shape : Shape Node) (position : Position) : Node :=
  { shape, position, lineBreaks := 0, text := "", parenthesized := false, bracket := false,
    receiver := none }

instance : Inhabited Node := ⟨ofShape default default⟩

/-- The name of the node's shape. -/
def label (node : Node) : String :=
  node.shape.label

/-- The name that a name node holds. -/
def name? (node : Node) : Option String :=
  match node.shape with
  | .name name => some name
  | _ => none

/-- Whether a value can be assigned to the node: to a name or to what brackets reach, but not
    through parentheses and not to a call. -/
def isAssignable (node : Node) : Bool :=
  !node.parenthesized &&
    match node.shape with
    | .name _ => true
    | .call _ => false
    | _ => node.bracket

/-- The node chained from another. -/
def chainedFrom (node receiver : Node) : Node :=
  { node with receiver := some receiver }

/-- A key reached through brackets from an object.  The key itself takes the mark; one that
    already has marks is wrapped, so that they are kept apart from the new ones. -/
def bracketed (key object : Node) : Node :=
  let node :=
    if key.receiver.isSome || key.bracket || key.parenthesized then
      ofShape (.computed key) key.position
    else key
  { node with bracket := true, receiver := some object }

end Node

end Schemata
