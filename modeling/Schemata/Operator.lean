import Schemata.Token.Basic

/-!
# Operators

`Operator` names the operation of a token between two operands or of an assignment, `BinaryKind` the
family that a binary expression belongs to, and `UnaryKind` the two operations that stand before
their operand.
-/

namespace Schemata

/-- The operation between two operands, or between a target and its new value. -/
inductive Operator where
  | or
  | and
  | equal
  | notEqual
  | less
  | lessEqual
  | greater
  | greaterEqual
  | concat
  | add
  | subtract
  | multiply
  | divide
  | modulo
  | power
  | assign
  | addAssign
  | subAssign
  deriving DecidableEq, Repr, Inhabited

namespace Operator

/-- Every operator. -/
def all : List Operator :=
  [or, and, equal, notEqual, less, lessEqual, greater, greaterEqual, concat, add, subtract,
   multiply, divide, modulo, power, assign, addAssign, subAssign]

/-- The kind of token that writes an operator. -/
def kind : Operator → TokenKind
  | or => .or
  | and => .and
  | equal => .equal
  | notEqual => .notEqual
  | less => .less
  | lessEqual => .lessEqual
  | greater => .greater
  | greaterEqual => .greaterEqual
  | concat => .ampersand
  | add => .plus
  | subtract => .minus
  | multiply => .star
  | divide => .slash
  | modulo => .percent
  | power => .power
  | assign => .assign
  | addAssign => .addAssign
  | subAssign => .subAssign

/-- The operator that a kind of token writes. -/
def ofKind? (kind : TokenKind) : Option Operator :=
  all.find? (·.kind == kind)

/-- The usual spelling of an operator. -/
def symbol (op : Operator) : String :=
  op.kind.label

/-- The operator with the given usual spelling. -/
def ofSymbol? (text : String) : Option Operator :=
  all.find? (·.symbol == text)

/-- An operator is found by its token. -/
@[simp] theorem ofKind?_kind (op : Operator) : ofKind? op.kind = some op := by
  cases op <;> decide

/-- An operator is found by its symbol. -/
@[simp] theorem ofSymbol?_symbol (op : Operator) : ofSymbol? op.symbol = some op := by
  cases op <;> decide

end Operator

/-- The family of a binary expression, one for each row of the precedence table. -/
inductive BinaryKind where
  | or
  | and
  | compare
  | concat
  | sum
  | product
  | power
  deriving DecidableEq, Repr, Inhabited

namespace BinaryKind

/-- Every family. -/
def all : List BinaryKind :=
  [or, and, compare, concat, sum, product, power]

/-- The name of a family. -/
def label : BinaryKind → String
  | or => "or"
  | and => "and"
  | compare => "compare"
  | concat => "concat"
  | sum => "sum"
  | product => "product"
  | power => "power"

/-- The family with the given name. -/
def ofLabel? (text : String) : Option BinaryKind :=
  all.find? (·.label == text)

/-- A family of operations is found by its label. -/
@[simp] theorem ofLabel?_label (kind : BinaryKind) : ofLabel? kind.label = some kind := by
  cases kind <;> decide

end BinaryKind

/-- The operations that stand before their operand. -/
inductive UnaryKind where
  | not
  | negate
  deriving DecidableEq, Repr, Inhabited

namespace UnaryKind

/-- The name of the operation. -/
def label : UnaryKind → String
  | not => "not"
  | negate => "negate"

/-- The operation with the given name. -/
def ofLabel? (text : String) : Option UnaryKind :=
  [not, negate].find? (·.label == text)

/-- How the operation is written. -/
def symbol : UnaryKind → String
  | not => "!"
  | negate => "-"

/-- An operation with one operand is found by its label. -/
@[simp] theorem ofLabel?_label (kind : UnaryKind) : ofLabel? kind.label = some kind := by
  cases kind <;> decide

end UnaryKind

end Schemata
