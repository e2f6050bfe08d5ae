import Schemata.Node.Basic

/-!
# Canonical source text

`Node.print` writes a node in canonical form: operators between single spaces, strings in double
quotes, one statement a line.  `Node.printAll` writes a list of statements.

A line break alone does not end a statement that the next line can continue, so the break gets a
semicolon where that could happen (`Line.join`).
-/

namespace Schemata

/-- How a character is written inside a double-quoted string. -/
def escapeChar : Char → List Char
  | '"' => ['\\', '"']
  | '\\' => ['\\', '\\']
  | '\n' => ['\\', 'n']
  | '\r' => ['\\', 'r']
  | '\t' => ['\\', 't']
  | c => [c]

/-- The text of a string literal, with its quotes. -/
def stringLiteral (value : String) : String :=
  String.ofList ('"' :: (value.toList.flatMap escapeChar ++ ['"']))

/-- How a field of an index directive is written. -/
def IndexField.print (field : IndexField) : String :=
  match field.direction with
  | some direction => "[" ++ field.name ++ ", " ++ direction.word ++ "]"
  | none => field.name

/-- A printed statement. -/
structure Line where
  text : String
  /-- Whether the statement is a `return` without a value, which would take the next line for
      one. -/
  bareReturn : Bool
  deriving DecidableEq, Repr

namespace Line

/-- Whether a line could be read as going on with the statement before it. -/
def continues (line : Line) : Bool :=
  match line.text.toList with
  | '(' :: _ | '[' :: _ | '-' :: _ => true
  | _ => false

/-- The break between two statements. -/
def separator (line next : Line) : String :=
  if line.bareReturn || next.continues then ";\n" else "\n"

/-- Statements one a line. -/
def join : List Line → String
  | [] => ""
  | [line] => line.text
  | line :: next :: rest => line.text ++ line.separator next ++ join (next :: rest)

/-- Statements one a line between braces. -/
def block (lines : List Line) : String :=
  "\x7b\n" ++ join lines ++ "\n\x7d"

end Line

/-- Whether the node is a `return` without a value. -/
def Node.isBareReturn (node : Node) : Bool :=
  match node.shape with
  | .returnStmt none => true
  | _ => false

/-- Whether the node is a name without receiver and parentheses. -/
def Node.isPlainName (node : Node) : Bool :=
  node.name?.isSome && node.receiver.isNone && !node.parenthesized

mutual

/-- The canonical text of a node. -/
def Node.print (node : Node) : String :=
  match node with
  | { shape, text, parenthesized, bracket, receiver, .. } =>
    let object := printOption receiver
    let inner :=
      if bracket then object.getD "" ++ "[" ++ printShape shape text none ++ "]"
      else printShape shape text object
    if parenthesized then "(" ++ inner ++ ")" else inner
  termination_by structural node

/-- The canonical text of a shape.  The `text` is that of the node, which an operator keeps, and
    the `object` is the printed receiver that a name or a call goes on from. -/
def Node.printShape (shape : Shape Node) (text : String) (object : Option String) : String :=
  match shape with
  | .name name =>
    match object with
    | some object => object ++ "." ++ name
    | none => name
  | .call args => object.getD "" ++ "(" ++ ", ".intercalate (printList args) ++ ")"
  | .computed key => key.print
  | .number literal => literal
  | .string value => stringLiteral value
  | .boolean value => if value then "true" else "false"
  | .array items => "[" ++ ", ".intercalate (printList items) ++ "]"
  | .object entries =>
    match printList entries with
    | [] => "\x7b\x7d"
    | texts => "\x7b " ++ ", ".intercalate texts ++ " \x7d"
  | .entry key value =>
    let keyText := key.print
    let valueText := value.print
    if key.isPlainName && keyText == valueText then keyText
    else keyText ++ ": " ++ valueText
  | .binary _ left op right => left.print ++ " " ++ op.print ++ " " ++ right.print
  | .assign left op right => left.print ++ " " ++ op.print ++ " " ++ right.print
  | .operator op => if text.isEmpty then op.symbol else text
  | .unary kind value => kind.symbol ++ value.print
  | .returnStmt value =>
    match printOption value with
    | some value => "return " ++ value
    | none => "return"
  | .constDecl name value => "const " ++ name ++ " = " ++ value.print
  | .letDecl name value =>
    match printOption value with
    | some value => "let " ++ name ++ " = " ++ value
    | none => "let " ++ name
  | .ifStmt condition body clauses =>
    "if " ++ condition.print ++ " " ++ Line.block (printLines body) ++
      String.join ((printList clauses).map (" " ++ ·))
  | .elseIf condition body =>
    "else if " ++ condition.print ++ " " ++ Line.block (printLines body)
  | .elseClause body => "else " ++ Line.block (printLines body)
  | .function name params body =>
    "function " ++ name ++ " (" ++ ", ".intercalate (printList params) ++ ") " ++
      Line.block (printLines body)
  | .param name type optional =>
    name ++ (if optional then "?" else "") ++
      match type with
      | some type => ": " ++ type
      | none => ""
  | .field name type required => name ++ ": " ++ type ++ (if required then "!" else "")
  | .index fields => "@index(" ++ ", ".intercalate (fields.map IndexField.print) ++ ")"
  | .collection name items => "collection " ++ name ++ " " ++ Line.block (printLines items)
  termination_by structural shape

/-- The canonical texts of the nodes of a list. -/
def Node.printList (nodes : List Node) : List String :=
  match nodes with
  | [] => []
  | node :: rest => node.print :: printList rest
  termination_by structural nodes

/-- The printed statements of a list. -/
def Node.printLines (nodes : List Node) : List Line :=
  match nodes with
  | [] => []
  | node :: rest => ⟨node.print, node.isBareReturn⟩ :: printLines rest
  termination_by structural nodes

/-- The canonical text of an optional node. -/
def Node.printOption (node : Option Node) : Option String :=
  match node with
  | none => none
  | some node => some node.print
  termination_by structural node

end

namespace Node

/-- The canonical text of a list of statements. -/
def printAll (nodes : List Node) : String :=
  Line.join (printLines nodes)

/-- A list of nodes is printed node by node. -/
@[simp] theorem printList_eq_map (nodes : List Node) : printList nodes = nodes.map print := by
  induction nodes with
  | nil => simp [printList]
  | cons node rest ih => simp [printList, ih]

/-- The lines of a list of nodes are their texts, each with whether it is a bare return. -/
@[simp] theorem printLines_eq_map (nodes : List Node) :
    printLines nodes = nodes.map fun node => ⟨node.print, node.isBareReturn⟩ := by
  induction nodes with
  | nil => simp [printLines]
  | cons node rest ih => simp [printLines, ih]

/-- A node that may be absent is printed if it is there. -/
@[simp] theorem printOption_eq_map (node : Option Node) : printOption node = node.map print := by
  cases node <;> simp [printOption]

end Node

end Schemata
