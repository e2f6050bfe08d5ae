import Schemata.Grammar
import Schemata.Node.Printer
import Schemata.Proofs.Lexing
import Schemata.Proofs.Tree

/-!
# Well-formed trees

The type `Node` lets any node stand in any place with any marks.  Here is what a tree of the
language is like, said of one node and its parts at a time:

- `Node.Ordered`: operands are grouped as the precedence table says
- `Node.WellFormed`: words are valid, marks and parts are where they may be, and the node is
  `Ordered`
- `Node.nesting`: the number of nested expressions and blocks that are open together while the
  node is read
-/

namespace Schemata

/-! ## Rows of a precedence table -/

/-- The family of a row of binary operators. -/
def Level.kind? : Level → Option BinaryKind
  | .binary kind _ => some kind
  | .unary _ => none

namespace Grammar

/-- The token is an operator of the given family. -/
def Binds (grammar : Grammar) (kind : BinaryKind) (token : TokenKind) : Prop :=
  ∃ operators, Level.binary kind operators ∈ grammar.levels ∧ token ∈ operators

/-- The token begins the given unary operation. -/
def Begins (grammar : Grammar) (kind : UnaryKind) (token : TokenKind) : Prop :=
  ∃ operators, Level.unary operators ∈ grammar.levels ∧ (token, kind) ∈ operators

end Grammar

/-- The row of a family in the standard table, counted from the loosest. -/
def BinaryKind.row (kind : BinaryKind) : Nat :=
  Grammar.standard.levels.findIdx (·.kind? == some kind)

/-- The row of the unary operations in the standard table. -/
def unaryRow : Nat :=
  Grammar.standard.levels.findIdx (·.kind? == none)

namespace BinaryKind

@[simp] theorem row_or : row .or = 0 := rfl
@[simp] theorem row_and : row .and = 1 := rfl
@[simp] theorem row_compare : row .compare = 2 := rfl
@[simp] theorem row_concat : row .concat = 3 := rfl
@[simp] theorem row_sum : row .sum = 4 := rfl
@[simp] theorem row_product : row .product = 5 := rfl
@[simp] theorem row_power : row .power = 7 := rfl

end BinaryKind

@[simp] theorem unaryRow_eq : unaryRow = 6 := rfl

/-! ## Precedence -/

namespace Node

/-- Whether nothing around the node sets it apart: neither parentheses nor brackets. -/
def isOpen (node : Node) : Bool :=
  !node.parenthesized && !node.bracket

/-- The family of an open binary expression. -/
def openBinary? (node : Node) : Option BinaryKind :=
  match node.shape with
  | .binary kind _ _ _ => if node.isOpen then some kind else none
  | _ => none

/-- Whether the node is an open unary operation. -/
def isOpenUnary (node : Node) : Bool :=
  match node.shape with
  | .unary _ _ => node.isOpen
  | _ => false

/-- The node is not an open operation. -/
def Closed (node : Node) : Prop :=
  node.openBinary? = none ∧ node.isOpenUnary = false

/-- Whether the node is an open power whose right operand is an open unary operation. -/
def endsInUnary (node : Node) : Bool :=
  match node.shape with
  | .binary .power _ _ right => node.isOpen && right.isOpenUnary
  | _ => false

end Node

/-- The operands of a shape are grouped as the standard table says.  A power to the left of an
    operator of its own row must not end in an open unary operation, which would take the
    operator for its operand. -/
def Shape.Ordered : Shape Node → Prop
  | .binary kind left op right =>
    (∃ o, op.shape = .operator o ∧ Grammar.standard.Binds kind o.kind) ∧
    (∀ k, left.openBinary? = some k → kind.row ≤ k.row) ∧
    (∀ k, right.openBinary? = some k → kind.row < k.row) ∧
    (kind = .power → left.isOpenUnary = false ∧ left.endsInUnary = false)
  | .unary _ value => ∀ k, value.openBinary? = some k → k = .power
  | _ => True

/-- The operands of a node are grouped as the standard table says, and what it is chained from is
    not an open operation. -/
def Node.Ordered (node : Node) : Prop :=
  node.shape.Ordered ∧ ∀ receiver, node.receiver = some receiver → receiver.Closed

namespace Node

/-- The operands of every node of a tree are grouped as the standard table says. -/
def Grouped (node : Node) : Prop :=
  ∀ m ∈ node.subtrees, m.Ordered

/-- A tree is grouped if its root is ordered and all its parts are grouped. -/
theorem grouped_iff {node : Node} :
    node.Grouped ↔ node.Ordered ∧ ∀ part ∈ node.parts, part.Grouped :=
  forall_subtrees_iff

/-- The case of a node without receiver. -/
theorem Grouped.of_parts {shape : Shape Node} {p : Position} {b : Nat} {x : String}
    {parenthesized bracket : Bool} (ho : shape.Ordered)
    (hparts : ∀ part ∈ shape.parts, part.Grouped) :
    (Node.mk shape p b x parenthesized bracket none).Grouped :=
  grouped_iff.2 ⟨⟨ho, by simp⟩, hparts⟩

/-- How operands are grouped depends only on the shape and the receiver. -/
theorem grouped_congr {a b : Node} (hs : a.shape = b.shape) (hr : a.receiver = b.receiver) :
    a.Grouped ↔ b.Grouped := by
  rw [grouped_iff, grouped_iff, Ordered, Ordered, parts, parts, hs, hr]

/-- Whether the node carries none of the marks of an expression. -/
def isUnmarked (node : Node) : Bool :=
  !node.parenthesized && !node.bracket && node.receiver.isNone

/-- A key with marks is wrapped, and one without any takes those of the access itself. -/
theorem bracketed_cases (key object : Node) :
    key.isUnmarked = false ∧
      key.bracketed object = ⟨.computed key, key.position, 0, "", false, true, some object⟩ ∨
    ∃ shape p b x, key = ⟨shape, p, b, x, false, false, none⟩ ∧
      key.bracketed object = ⟨shape, p, b, x, false, true, some object⟩ := by
  obtain ⟨shape, p, b, x, parenthesized, bracket, receiver⟩ := key
  cases parenthesized <;> cases bracket <;> cases receiver <;>
    simp [bracketed, isUnmarked, ofShape]

/-- A key in brackets is grouped if the key and what it is looked up in are, and the latter is
    closed. -/
theorem Grouped.bracketed {key object : Node} (hk : key.Grouped) (ho : object.Grouped)
    (hc : object.Closed) : (key.bracketed object).Grouped := by
  have hclosed : ∀ receiver, some object = some receiver → receiver.Closed := by
    rintro _ ⟨⟩
    exact hc
  -- The key is wrapped, or gives its shape to the access
  obtain ⟨-, he⟩ | ⟨shape, p, b, x, rfl, he⟩ := bracketed_cases key object <;>
    rw [he, grouped_iff]
  · refine ⟨⟨trivial, hclosed⟩, ?_⟩
    simpa [Shape.parts] using ⟨ho, hk⟩
  · obtain ⟨⟨hshape, -⟩, hparts⟩ := grouped_iff.1 hk
    refine ⟨⟨hshape, hclosed⟩, ?_⟩
    simpa using ⟨ho, hparts⟩

/-- The key and what it is looked up in are grouped if the access is. -/
theorem Grouped.of_bracketed {key object : Node} (h : (key.bracketed object).Grouped) :
    key.Grouped ∧ object.Grouped := by
  obtain ⟨-, he⟩ | ⟨shape, p, b, x, rfl, he⟩ := bracketed_cases key object <;>
    rw [he, grouped_iff] at h
  -- A wrapped key is a part of the node
  · have hparts : object.Grouped ∧ key.Grouped := by simpa [Shape.parts] using h.2
    exact hparts.symm
  -- A key that is not wrapped has given its own shape to the node
  · have hparts : object.Grouped ∧ ∀ part ∈ shape.parts, part.Grouped := by simpa using h.2
    exact ⟨.of_parts h.1.1 hparts.2, hparts.1⟩

/-- The node can be an operand at the given level of the standard table: an open operation is of
    that level or a tighter one. -/
def Fits (level : Nat) (node : Node) : Prop :=
  (∀ kind, node.openBinary? = some kind → level ≤ kind.row) ∧
    (node.isOpenUnary = true → level ≤ unaryRow)

/-- What stands in parentheses or brackets is closed. -/
theorem closed_of_isOpen_eq_false {node : Node} (h : node.isOpen = false) : node.Closed := by
  obtain ⟨shape, p, b, x, parenthesized, bracket, receiver⟩ := node
  cases shape <;> simp [Closed, openBinary?, isOpenUnary, h]

/-- A closed node fits any level. -/
theorem Closed.fits {node : Node} (h : node.Closed) (level : Nat) : node.Fits level :=
  ⟨fun kind hk => by simp [h.1] at hk, fun hu => by simp [h.2] at hu⟩

/-- What fits a level fits every looser one. -/
theorem Fits.mono {node : Node} {i j : Nat} (h : node.Fits j) (hij : i ≤ j) : node.Fits i :=
  ⟨fun kind hk => Nat.le_trans hij (h.1 kind hk), fun hu => Nat.le_trans hij (h.2 hu)⟩

/-- Every node fits the loosest level. -/
theorem fits_zero (node : Node) : node.Fits 0 :=
  ⟨fun _ _ => Nat.zero_le _, fun _ => Nat.zero_le _⟩

end Node

/-! ## Places -/

/-- What a shape may be used as. -/
inductive Role where
  | expression
  | operator
  | entry
  | statement
  | clause
  | param
  | field
  | index
  | function
  | collection
  deriving DecidableEq, Repr

/-- What a shape is used as. -/
def Shape.role {ν : Type} : Shape ν → Role
  | array _ | object _ | number _ | string _ | boolean _ | binary _ _ _ _ | unary _ _ | name _
  | call _ | computed _ => .expression
  | operator _ => .operator
  | entry _ _ => .entry
  | returnStmt _ | constDecl _ _ | letDecl _ _ | assign _ _ _ | ifStmt _ _ _ => .statement
  | elseIf _ _ | elseClause _ => .clause
  | param _ _ _ => .param
  | field _ _ _ => .field
  | index _ => .index
  | function _ _ _ => .function
  | collection _ _ => .collection

namespace Node

/-- What a node is used as. -/
def role (node : Node) : Role :=
  node.shape.role

@[simp] theorem role_mk (shape : Shape Node) (p : Position) (b : Nat) (x : String)
    (parenthesized bracket : Bool) (receiver : Option Node) :
    (Node.mk shape p b x parenthesized bracket receiver).role = shape.role := rfl

/-- A key in brackets is an expression. -/
theorem role_bracketed {key : Node} (h : key.role = .expression) (object : Node) :
    (key.bracketed object).role = .expression := by
  obtain ⟨-, he⟩ | ⟨shape, p, b, x, rfl, he⟩ := bracketed_cases key object <;> rw [he]
  · rfl
  · exact h

/-- Whether the node may stand in a block. -/
def isStatement (node : Node) : Bool :=
  node.role == .expression || node.role == .statement

/-- Whether the node may stand at the top of a program. -/
def isTop (node : Node) : Bool :=
  node.isStatement || node.role == .function || node.role == .collection

/-- Whether the node may stand in a collection. -/
def isItem (node : Node) : Bool :=
  node.role == .field || node.role == .index || node.role == .function

/-- Whether the node is an unmarked name or string, as the key of an object is. -/
def isKey (node : Node) : Bool :=
  node.isUnmarked &&
    match node.shape with
    | .name _ | .string _ => true
    | _ => false

/-- The two ways to write a key. -/
theorem eq_of_isKey {key : Node} (h : key.isKey = true) :
    ∃ p b x, (∃ word, key = ⟨.name word, p, b, x, false, false, none⟩) ∨
      ∃ value, key = ⟨.string value, p, b, x, false, false, none⟩ := by
  obtain ⟨shape, p, b, x, parenthesized, bracket, receiver⟩ := key
  refine ⟨p, b, x, ?_⟩
  cases shape <;> cases receiver <;> simp_all [isKey, isUnmarked]

/-- The operator that an unmarked operator node holds. -/
def operator? (node : Node) : Option Operator :=
  match node.shape with
  | .operator op => if node.isUnmarked then some op else none
  | _ => none

/-- A node that holds an operator holds nothing else. -/
theorem eq_of_operator? {node : Node} {op : Operator} (h : node.operator? = some op) :
    ∃ p b x, node = ⟨.operator op, p, b, x, false, false, none⟩ := by
  obtain ⟨shape, p, b, x, parenthesized, bracket, receiver⟩ := node
  refine ⟨p, b, x, ?_⟩
  cases shape <;> cases receiver <;> simp_all [operator?, isUnmarked]

/-- Whether the node is a further clause with a condition. -/
def isElseIf (node : Node) : Bool :=
  match node.shape with
  | .elseIf _ _ => true
  | _ => false

end Node

/-! ## Well-formedness -/

/-- A type: a name, or a name and a pair of brackets. -/
def Scan.IsType (text : String) : Prop :=
  ∃ name, isName name = true ∧ (text = name ∨ text = name ++ "[]")

/-- The names, types and numbers of a shape are ones that the lexer reads. -/
def Shape.WordsValid {ν : Type} : Shape ν → Prop
  | name word => Scan.isName word = true
  | number literal => Scan.isNumber literal = true
  | constDecl word _ | letDecl word _ | function word _ _ | collection word _ =>
    Scan.isName word = true
  | param word type _ => Scan.isName word = true ∧ ∀ t, type = some t → Scan.IsType t
  | field word type _ => Scan.isName word = true ∧ Scan.IsType type
  | index fields => ∀ field ∈ fields, Scan.isName field.name = true
  | _ => True

/-- The parts of a shape are what they may be in their places. -/
def Shape.PartsValid : Shape Node → Prop
  | array items | call items => ∀ item ∈ items, item.role = .expression
  | object entries => ∀ entry ∈ entries, entry.role = .entry
  | entry key value => key.isKey = true ∧ value.role = .expression
  | binary _ left op right =>
    left.role = .expression ∧ op.operator?.isSome = true ∧ right.role = .expression
  | unary _ value | computed value | constDecl _ value => value.role = .expression
  | returnStmt value | letDecl _ value => ∀ v, value = some v → v.role = .expression
  | assign left op right =>
    left.role = .expression ∧ left.isAssignable = true ∧
      (∃ o, op.operator? = some o ∧ o ∈ [Operator.assign, .addAssign, .subAssign]) ∧
      right.role = .expression
  | ifStmt condition body clauses =>
    condition.role = .expression ∧ (∀ node ∈ body, node.isStatement = true) ∧
      (∀ clause ∈ clauses, clause.role = .clause) ∧
      ∀ clause ∈ clauses.dropLast, clause.isElseIf = true
  | elseIf condition body =>
    condition.role = .expression ∧ ∀ node ∈ body, node.isStatement = true
  | elseClause body => ∀ node ∈ body, node.isStatement = true
  | function _ params body =>
    (∀ param ∈ params, param.role = .param) ∧ ∀ node ∈ body, node.isStatement = true
  | collection _ items => ∀ item ∈ items, item.isItem = true
  | _ => True

/-- Whether nodes of the shape may be unmarked. -/
def Shape.standsAlone {ν : Type} : Shape ν → Bool
  | call _ | computed _ => false
  | _ => true

namespace Node

/-- The marks of a node fit its shape.  Only an expression has any; what is reached through
    brackets has a receiver, and without brackets only a name and a call have one; a call always
    has one; and a computed key is in brackets and has marks of its own. -/
def MarksValid (node : Node) : Prop :=
  (node.bracket = true → node.receiver.isSome = true) ∧
  match node.shape with
  | .name _ => True
  | .call _ => node.receiver.isSome = true ∧ node.bracket = false
  | .computed key => node.bracket = true ∧ key.isUnmarked = false
  | shape =>
    if shape.role = .expression then node.receiver.isSome = true → node.bracket = true
    else node.isUnmarked = true

/-- A shape that may be unmarked has no need of marks. -/
theorem marksValid_of_standsAlone {shape : Shape Node} {p : Position} {b : Nat} {x : String}
    (h : shape.standsAlone = true) : (Node.mk shape p b x false false none).MarksValid := by
  cases shape <;> simp_all [MarksValid, Shape.standsAlone, isUnmarked]

/-- What holds of every node of a tree of the language. -/
structure WellFormed (node : Node) : Prop where
  words : node.shape.WordsValid
  marks : node.MarksValid
  parts : node.shape.PartsValid
  receiver : ∀ receiver, node.receiver = some receiver → receiver.role = .expression
  ordered : node.Ordered

/-- Parentheses may stand around any expression. -/
theorem WellFormed.congr_parenthesized {shape : Shape Node} {p p' : Position} {b b' : Nat}
    {x x' : String} {parenthesized parenthesized' bracket : Bool} {receiver : Option Node}
    (h : (Node.mk shape p b x parenthesized bracket receiver).WellFormed)
    (hrole : shape.role = .expression) :
    (Node.mk shape p' b' x' parenthesized' bracket receiver).WellFormed := by
  refine ⟨h.words, ?_, h.parts, h.receiver, h.ordered⟩
  have hmarks := h.marks
  -- Only of what is not an expression do marks ask for parentheses to be absent
  cases shape <;> first | exact hmarks | cases hrole

/-- Only expressions have marks. -/
theorem WellFormed.eq_unmarked {node : Node} (h : node.WellFormed)
    (hrole : node.role ≠ .expression) :
    node = ⟨node.shape, node.position, node.lineBreaks, node.text, false, false, none⟩ := by
  have hmarks := h.marks.2
  obtain ⟨shape, p, b, x, parenthesized, bracket, receiver⟩ := node
  cases shape <;> cases receiver <;> simp_all [role, Shape.role, isUnmarked]

/-- What holds of every node of a tree of the language whose text can be used as it is: an operator
    notes no text, or one of the ways to write it. -/
structure Printable (node : Node) : Prop extends node.WellFormed where
  spelled : ∀ op, node.shape = .operator op → node.text = "" ∨ node.text ∈ op.kind.spellings

end Node

/-! ## Nesting -/

/-- The largest of some numbers, 0 if there are none. -/
def largest (numbers : List Nat) : Nat :=
  numbers.foldr max 0

/-- The largest number is below a bound if all are. -/
theorem largest_le_iff {numbers : List Nat} {bound : Nat} :
    largest numbers ≤ bound ↔ ∀ n ∈ numbers, n ≤ bound := by
  induction numbers with
  | nil => simp [largest]
  | cons n numbers ih =>
    simp only [largest, List.foldr_cons, Nat.max_le, List.mem_cons, forall_eq_or_imp]
    exact and_congr_right fun _ => ih

/-- The largest of some values is below a bound if all are. -/
theorem largest_map_le_iff {α : Type} {f : α → Nat} {xs : List α} {bound : Nat} :
    largest (xs.map f) ≤ bound ↔ ∀ x ∈ xs, f x ≤ bound := by
  simp [largest_le_iff]

namespace Node

/-- Whether an entry of an object is written as a name alone. -/
def isShorthand (key value : Node) : Bool :=
  key.isPlainName && value.same key

/-- An entry of well-formed parts is written as a name alone exactly if its key and its value are
    the same name. -/
theorem isShorthand_iff {key value : Node} (h : key.isKey = true) :
    isShorthand key value = true ↔ ∃ word p b x p' b' x',
      key = ⟨.name word, p, b, x, false, false, none⟩ ∧
        value = ⟨.name word, p', b', x', false, false, none⟩ := by
  obtain ⟨p, b, x, ⟨word, rfl⟩ | ⟨text, rfl⟩⟩ := eq_of_isKey h
  · obtain ⟨shape, p', b', x', parenthesized, bracket, receiver⟩ := value
    simp only [isShorthand, isPlainName, name?, same_iff_erase, erase_mk, Bool.and_eq_true]
    -- Only a name is the same as a name
    cases shape with
    | name word' =>
      simp only [Shape.map, Node.mk.injEq, Shape.name.injEq, Option.map_none,
        Option.map_eq_none_iff]
      constructor
      · rintro ⟨-, rfl, -, -, -, rfl, rfl, rfl⟩
        exact ⟨word', p, b, x, p', b', x', by simp⟩
      · rintro ⟨_, _, _, _, _, _, _, ⟨rfl, -⟩, rfl, -, -, -, rfl, rfl, rfl⟩
        simp
    | _ => simp [Shape.map]
  · simp [isShorthand, isPlainName, name?]

/-- The room that a node takes as a statement, if it takes `nesting` inside.  An expression is
    nested in the statement that it makes up. -/
def standing (node : Node) (nesting : Nat) : Nat :=
  if node.role = .expression then nesting + 1 else nesting

/-- The room that a block takes, from its statements and what they take inside. -/
def blockNesting (body : List (Node × Nat)) : Nat :=
  largest (body.map fun part => part.1.standing part.2) + 1

/-- The room that a shape takes, from its parts and what they take inside. -/
def shapeNesting : Shape (Node × Nat) → Nat
  | .array items | .call items => largest (items.map (·.2 + 1))
  | .object entries => largest (entries.map (·.2))
  | .entry key value => if isShorthand key.1 value.1 then 0 else value.2 + 1
  | .binary _ left _ right => max left.2 right.2
  | .unary _ value | .constDecl _ value => value.2 + 1
  | .computed key => key.2
  | .returnStmt value | .letDecl _ value => value.elim 0 (·.2 + 1)
  | .assign left _ right => max left.2 right.2 + 1
  | .ifStmt condition body clauses =>
    max (condition.2 + 1) (max (blockNesting body) (largest (clauses.map (·.2))))
  | .elseIf condition body => max (condition.2 + 1) (blockNesting body)
  | .elseClause body | .function _ _ body => blockNesting body
  | .collection _ items => largest (items.map (·.2))
  | _ => 0

/-- The number of nested expressions and blocks that are open together inside a node while it is
    read: what stands in parentheses, in brackets, between commas or after a unary operator is
    nested, and so are the expressions and the blocks of a statement. -/
def nesting (node : Node) : Nat :=
  node.fold fun node shape receiver =>
    -- Brackets nest the shape, and parentheses nest the whole chain
    let inner := shapeNesting shape
    let chained := max (receiver.elim 0 (·.2)) (if node.bracket then inner + 1 else inner)
    if node.parenthesized then chained + 1 else chained

/-- The number of nested expressions and blocks that are open together while a program is read. -/
def programNesting (nodes : List Node) : Nat :=
  largest (nodes.map fun node => node.standing node.nesting)

/-- Nesting, one level at a time. -/
theorem nesting_eq (node : Node) :
    node.nesting =
      let inner := shapeNesting (node.shape.map fun part => (part, part.nesting))
      let chained := max (node.receiver.elim 0 nesting) (if node.bracket then inner + 1 else inner)
      if node.parenthesized then chained + 1 else chained := by
  rw [nesting, fold_eq]
  cases node.receiver <;> rfl

end Node

/-! ## Erasure

Nothing here looks at what a node says about its source. -/

@[simp] theorem Shape.role_map {μ ν : Type} (f : μ → ν) (shape : Shape μ) :
    (shape.map f).role = shape.role := by
  cases shape <;> rfl

@[simp] theorem Shape.standsAlone_map {μ ν : Type} (f : μ → ν) (shape : Shape μ) :
    (shape.map f).standsAlone = shape.standsAlone := by
  cases shape <;> rfl

namespace Node

@[simp] theorem role_erase (node : Node) : node.erase.role = node.role := by
  simp [role, erase_eq node]

@[simp] theorem standsAlone_erase (node : Node) :
    node.erase.shape.standsAlone = node.shape.standsAlone := by
  simp [erase_eq node]

@[simp] theorem isStatement_erase (node : Node) : node.erase.isStatement = node.isStatement := by
  simp [isStatement]

@[simp] theorem isTop_erase (node : Node) : node.erase.isTop = node.isTop := by
  simp [isTop]

@[simp] theorem isItem_erase (node : Node) : node.erase.isItem = node.isItem := by
  simp [isItem]

@[simp] theorem isOpen_erase (node : Node) : node.erase.isOpen = node.isOpen := by
  simp [isOpen, erase_eq node]

@[simp] theorem isUnmarked_erase (node : Node) : node.erase.isUnmarked = node.isUnmarked := by
  simp [isUnmarked, erase_eq node]

section Shapes

variable (node : Node)

/-- Erasure keeps the family of an open binary expression. -/
@[simp] theorem openBinary?_erase : node.erase.openBinary? = node.openBinary? := by
  have hopen := isOpen_erase node
  obtain ⟨shape, p, b, x, parenthesized, bracket, receiver⟩ := node
  cases shape <;> simp_all [openBinary?, Shape.map]

/-- Erasure keeps open unary operations. -/
@[simp] theorem isOpenUnary_erase : node.erase.isOpenUnary = node.isOpenUnary := by
  have hopen := isOpen_erase node
  obtain ⟨shape, p, b, x, parenthesized, bracket, receiver⟩ := node
  cases shape <;> simp_all [isOpenUnary, Shape.map]

/-- Erasure keeps powers that end in an open unary operation. -/
@[simp] theorem endsInUnary_erase : node.erase.endsInUnary = node.endsInUnary := by
  have hopen := isOpen_erase node
  obtain ⟨shape, p, b, x, parenthesized, bracket, receiver⟩ := node
  cases shape with
  | binary kind => cases kind <;> simp_all [endsInUnary, Shape.map]
  | _ => simp [endsInUnary, Shape.map]

/-- Erasure keeps keys. -/
@[simp] theorem isKey_erase : node.erase.isKey = node.isKey := by
  have hmarks := isUnmarked_erase node
  obtain ⟨shape, p, b, x, parenthesized, bracket, receiver⟩ := node
  cases shape <;> simp_all [isKey, Shape.map]

/-- Erasure keeps operators. -/
@[simp] theorem operator?_erase : node.erase.operator? = node.operator? := by
  have hmarks := isUnmarked_erase node
  obtain ⟨shape, p, b, x, parenthesized, bracket, receiver⟩ := node
  cases shape <;> simp_all [operator?, Shape.map]

/-- Erasure keeps clauses with a condition. -/
@[simp] theorem isElseIf_erase : node.erase.isElseIf = node.isElseIf := by
  obtain ⟨shape, p, b, x, parenthesized, bracket, receiver⟩ := node
  cases shape <;> simp [isElseIf, Shape.map]

/-- Erasure keeps plain names. -/
@[simp] theorem isPlainName_erase : node.erase.isPlainName = node.isPlainName := by
  obtain ⟨shape, p, b, x, parenthesized, bracket, receiver⟩ := node
  cases shape <;> simp [isPlainName, name?, Shape.map]

/-- Erasure makes no operators. -/
theorem shape_erase_eq_operator {op : Operator} :
    node.erase.shape = .operator op ↔ node.shape = .operator op := by
  obtain ⟨shape, p, b, x, parenthesized, bracket, receiver⟩ := node
  cases shape <;> simp [Shape.map]

end Shapes

/-- Erasure keeps operands grouped. -/
private theorem shapeOrdered_erase (shape : Shape Node) :
    (shape.map erase).Ordered ↔ shape.Ordered := by
  cases shape <;> simp [Shape.map, Shape.Ordered, shape_erase_eq_operator]

/-- Erasure keeps words. -/
private theorem wordsValid_erase (shape : Shape Node) :
    (shape.map erase).WordsValid ↔ shape.WordsValid := by
  cases shape <;> simp [Shape.map, Shape.WordsValid]

/-- Erasure keeps parts in their places. -/
private theorem partsValid_erase (shape : Shape Node) :
    (shape.map erase).PartsValid ↔ shape.PartsValid := by
  cases shape <;> simp [Shape.map, Shape.PartsValid, ← List.map_dropLast]

/-- Erasure keeps marks. -/
private theorem marksValid_erase (node : Node) : node.erase.MarksValid ↔ node.MarksValid := by
  have hmarks := isUnmarked_erase node
  obtain ⟨shape, p, b, x, parenthesized, bracket, receiver⟩ := node
  cases shape <;> simp_all [MarksValid, Shape.map, Shape.role]

/-- Erasure keeps nodes ordered. -/
private theorem ordered_erase (node : Node) : node.erase.Ordered ↔ node.Ordered := by
  obtain ⟨shape, p, b, x, parenthesized, bracket, receiver⟩ := node
  simp [Ordered, shapeOrdered_erase, Closed]

/-- A node is well-formed if what is left of it by erasure is. -/
theorem wellFormed_erase (node : Node) : node.erase.WellFormed ↔ node.WellFormed := by
  -- Every field is about the shape or the receiver, and erasure goes through both
  have hshape : node.erase.shape = node.shape.map erase := by rw [erase_eq node]
  have hreceiver : node.erase.receiver = node.receiver.map erase := by rw [erase_eq node]
  constructor
  · intro h
    refine ⟨?_, (marksValid_erase node).1 h.marks, ?_, ?_, (ordered_erase node).1 h.ordered⟩
    · exact (wordsValid_erase _).1 (hshape ▸ h.words)
    · exact (partsValid_erase _).1 (hshape ▸ h.parts)
    · intro receiver hr
      have := h.receiver receiver.erase (by rw [hreceiver, hr, Option.map_some])
      rwa [role_erase] at this
  · intro h
    refine ⟨?_, (marksValid_erase node).2 h.marks, ?_, ?_, (ordered_erase node).2 h.ordered⟩
    · exact hshape ▸ (wordsValid_erase _).2 h.words
    · exact hshape ▸ (partsValid_erase _).2 h.parts
    · intro receiver hr
      rw [hreceiver] at hr
      obtain ⟨m, hm, rfl⟩ := Option.map_eq_some_iff.1 hr
      rw [role_erase]
      exact h.receiver m hm

/-- Erasing the parts of a shape does not change the room that the shape takes. -/
private theorem shapeNesting_erase (shape : Shape Node) (nesting : Node → Nat) :
    shapeNesting (shape.map fun part => (part.erase, nesting part)) =
      shapeNesting (shape.map fun part => (part, nesting part)) := by
  cases shape <;>
    simp [Shape.map, shapeNesting, isShorthand, blockNesting, standing, Function.comp_def]

/-- Nesting does not depend on what a tree says about its source. -/
@[simp] theorem nesting_erase (node : Node) : node.erase.nesting = node.nesting := by
  induction node using Node.induction with
  | step node ih =>
    -- Inside, the parts keep their nesting by induction; which part is a statement is kept too
    have hshape : node.shape.map (fun part => (part.erase, part.erase.nesting)) =
        node.shape.map fun part => (part.erase, part.nesting) :=
      Shape.map_congr fun part hp => by rw [ih part (List.mem_append_right _ hp)]
    have hreceiver : (node.receiver.map erase).elim 0 nesting = node.receiver.elim 0 nesting := by
      cases hr : node.receiver with
      | none => rfl
      | some receiver => exact ih receiver (by simp [Node.parts, hr])
    rw [nesting_eq, nesting_eq node, erase_eq node]
    simp only [Shape.map_map, hshape, hreceiver, shapeNesting_erase]

/-- Nesting does not depend on what a program says about its source. -/
theorem programNesting_congr {as bs : List Node} (h : as.map erase = bs.map erase) :
    programNesting as = programNesting bs := by
  have herase : ∀ nodes, programNesting nodes = programNesting (nodes.map erase) := by
    simp [programNesting, standing, Function.comp_def]
  rw [herase as, h, ← herase bs]

end Node

end Schemata
