import Schemata.Node.Basic

/-!
# Structural equality

Two nodes are the same when they have the same shape, marks and receiver all the way down.  Where
they were written, and the source text they were read from, do not matter.
-/

namespace Schemata

mutual

/-- Whether two nodes are the same up to position, line breaks and text. -/
def Node.same (a b : Node) : Bool :=
  match a, b with
  | { shape, parenthesized, bracket, receiver, .. }, b =>
    sameShape shape b.shape && parenthesized == b.parenthesized && bracket == b.bracket &&
      sameOption receiver b.receiver
  termination_by structural a

/-- Whether two shapes agree, their parts being the same. -/
def Node.sameShape (a b : Shape Node) : Bool :=
  match a, b with
  | .array items, .array items' => sameList items items'
  | .object entries, .object entries' => sameList entries entries'
  | .entry key value, .entry key' value' => key.same key' && value.same value'
  | .number literal, .number literal' => literal == literal'
  | .string value, .string value' => value == value'
  | .boolean value, .boolean value' => value == value'
  | .binary kind left op right, .binary kind' left' op' right' =>
    kind == kind' && left.same left' && op.same op' && right.same right'
  | .operator op, .operator op' => op == op'
  | .unary kind value, .unary kind' value' => kind == kind' && value.same value'
  | .name name, .name name' => name == name'
  | .call args, .call args' => sameList args args'
  | .computed key, .computed key' => key.same key'
  | .returnStmt value, .returnStmt value' => sameOption value value'
  | .constDecl name value, .constDecl name' value' => name == name' && value.same value'
  | .letDecl name value, .letDecl name' value' => name == name' && sameOption value value'
  | .assign left op right, .assign left' op' right' =>
    left.same left' && op.same op' && right.same right'
  | .ifStmt condition body clauses, .ifStmt condition' body' clauses' =>
    condition.same condition' && sameList body body' && sameList clauses clauses'
  | .elseIf condition body, .elseIf condition' body' =>
    condition.same condition' && sameList body body'
  | .elseClause body, .elseClause body' => sameList body body'
  | .function name params body, .function name' params' body' =>
    name == name' && sameList params params' && sameList body body'
  | .param name type optional, .param name' type' optional' =>
    name == name' && type == type' && optional == optional'
  | .field name type required, .field name' type' required' =>
    name == name' && type == type' && required == required'
  | .index fields, .index fields' => fields == fields'
  | .collection name items, .collection name' items' => name == name' && sameList items items'
  | _, _ => false
  termination_by structural a

/-- Whether two lists hold the same nodes in the same order. -/
def Node.sameList (as bs : List Node) : Bool :=
  match as, bs with
  | [], [] => true
  | a :: as, b :: bs => a.same b && sameList as bs
  | _, _ => false
  termination_by structural as

/-- Whether two optional nodes are both absent or the same. -/
def Node.sameOption (a b : Option Node) : Bool :=
  match a, b with
  | none, none => true
  | some a, some b => a.same b
  | _, _ => false
  termination_by structural a

end

end Schemata
