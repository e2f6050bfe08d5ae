import Schemata.Operator

/-!
# Precedence tables

A `Grammar` is the table of expression levels, loosest first.  Everything else in the language is
the same for every table.
-/

namespace Schemata

/-- One row of a precedence table. -/
inductive Level where
  /-- Operators between two operands, of equal precedence, grouped from the left. -/
  | binary (kind : BinaryKind) (operators : List TokenKind)
  /-- Operators before an operand of the same level, so that they nest. -/
  | unary (operators : List (TokenKind × UnaryKind))
  deriving DecidableEq, Repr, Inhabited

/-- The operation that a token begins at a unary level. -/
def Level.unary? (token : TokenKind) : Level → Option UnaryKind
  | .unary operators => operators.lookup token
  | .binary _ _ => none

/-- A precedence table, loosest level first. -/
structure Grammar where
  levels : List Level
  deriving DecidableEq, Repr, Inhabited

namespace Grammar

/-- The standard table: or, and, comparison, concatenation, sum, product, unary, power. -/
def standard : Grammar where
  levels :=
    [.binary .or [.or],
     .binary .and [.and],
     .binary .compare [.equal, .notEqual, .less, .lessEqual, .greater, .greaterEqual],
     .binary .concat [.ampersand],
     .binary .sum [.plus, .minus],
     .binary .product [.star, .slash, .percent],
     .unary [(.not, .not), (.minus, .negate)],
     .binary .power [.power]]

/-- The closest level before level `index` whose unary operators include the token. -/
def looserUnary? (grammar : Grammar) (index : Nat) (token : TokenKind) :
    Option (Nat × UnaryKind) :=
  (grammar.levels.take index).zipIdx.reverse.findSome? fun (level, i) =>
    (level.unary? token).map (i, ·)

end Grammar

end Schemata
