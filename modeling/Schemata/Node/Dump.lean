import Schemata.Json.Basic
import Schemata.Node.Basic
import Schemata.Number

/-!
# Trees as JSON

`Node.toJson` writes out a node: the name of its shape and the parts of it, where it stands in the
source, and its marks where they are set.
-/

namespace Schemata

/-- The value of a number literal, null if it has none. -/
def literalJson (literal : String) : Json :=
  match (Number.mk literal).toBinary64? with
  | some value => if value.isFinite then .number (.double value) else .null
  | none => .null

/-- A field of an index directive as JSON, with the direction in which it sorts. -/
def IndexField.toJson (field : IndexField) : Json :=
  .ofMembers [("name", .string field.name), ("direction", .string field.order.word)]

/-- The members that every node has, whatever its shape. -/
def Node.commonMembers (label text : String) (position : Position) (lineBreaks : Nat)
    (parenthesized bracket : Bool) (receiver : Option Json) : List (String × Json) :=
  [("type", .string label), ("line", .ofNat position.line), ("col", .ofNat position.col),
   ("offset", .ofNat position.offset), ("lineBreaks", .ofNat lineBreaks),
   ("text", .string text)] ++
  (if parenthesized then [("parenthesized", .bool true)] else []) ++
  (if bracket then [("bracket", .bool true)] else []) ++
  (receiver.map (("prefix", ·))).toList

mutual

/-- A node as JSON. -/
def Node.toJson (node : Node) : Json :=
  match node with
  | { shape, position, lineBreaks, text, parenthesized, bracket, receiver } =>
    .ofMembers (shapeMembers shape text ++
      commonMembers shape.label text position lineBreaks parenthesized bracket
        (optionToJson receiver))
  termination_by structural node

/-- The members that a node has for its shape.  An operator is written as its node's text. -/
def Node.shapeMembers (shape : Shape Node) (text : String) : List (String × Json) :=
  match shape with
  | .array items => [("value", .array (listToJson items))]
  | .object entries => [("value", .array (listToJson entries))]
  | .entry key value => [("key", key.toJson), ("value", value.toJson)]
  | .number literal => [("value", literalJson literal)]
  | .string value => [("value", .string value)]
  | .boolean value => [("value", .bool value)]
  | .binary _ left op right =>
    [("left", left.toJson), ("op", op.toJson), ("right", right.toJson)]
  | .operator op => [("value", .string (if text.isEmpty then op.symbol else text))]
  | .unary _ value => [("value", value.toJson)]
  | .name name => [("value", .string name)]
  | .call args => [("args", .array (listToJson args))]
  | .computed key => [("expression", key.toJson)]
  | .returnStmt value => [("value", (optionToJson value).getD .null)]
  | .constDecl name value => [("name", .string name), ("value", value.toJson)]
  | .letDecl name value => [("name", .string name), ("value", (optionToJson value).getD .null)]
  | .assign left op right =>
    [("left", left.toJson), ("op", op.toJson), ("right", right.toJson)]
  | .ifStmt condition body clauses =>
    [("expression", condition.toJson), ("body", .array (listToJson body)),
     ("else", .array (listToJson clauses))]
  | .elseIf condition body =>
    [("expression", condition.toJson), ("body", .array (listToJson body))]
  | .elseClause body => [("body", .array (listToJson body))]
  | .function name params body =>
    [("name", .string name), ("params", .array (listToJson params)),
     ("body", .array (listToJson body))]
  | .param name type optional =>
    [("name", .string name), ("paramType", (type.map Json.string).getD .null),
     ("optional", .bool optional)]
  | .field name type required =>
    [("name", .string name), ("fieldType", .string type), ("required", .bool required)]
  | .index fields => [("fields", .array (fields.map IndexField.toJson))]
  | .collection name items => [("name", .string name), ("items", .array (listToJson items))]
  termination_by structural shape

/-- The nodes of a list as JSON. -/
def Node.listToJson (nodes : List Node) : List Json :=
  match nodes with
  | [] => []
  | node :: rest => node.toJson :: listToJson rest
  termination_by structural nodes

/-- An optional node as JSON. -/
def Node.optionToJson (node : Option Node) : Option Json :=
  match node with
  | none => none
  | some node => some node.toJson
  termination_by structural node

end

/-- A list of statements as JSON. -/
def Node.dump (nodes : List Node) : Json :=
  .array (listToJson nodes)

end Schemata
