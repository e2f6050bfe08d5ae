import Schemata.Node.Basic

/-!
# Slots and traversal

The nodes below a node are reached through named slots.  Two walks over a tree use them:

* `select` collects the nodes that satisfy a predicate, each after the nodes below it, through
  the `searched` slots;
* `transformM` replaces every node, each before the nodes below its replacement, through the
  `transformed` slots.

Neither enters the keys of objects or the further clauses of a conditional.
-/

namespace Schemata

/-- A named place for nodes below a node. -/
inductive Slot where
  | left
  | op
  | right
  /-- The operand, the value, or the items of a literal. -/
  | value
  | args
  | receiver
  /-- The statements of a block, or the items of a collection. -/
  | body
  | params
  /-- The condition of a clause, or a computed key. -/
  | expression
  deriving DecidableEq, Repr, Inhabited

namespace Slot

/-- The slots through which nodes are searched, in order. -/
def searched : List Slot :=
  [left, op, right, value, args, receiver]

/-- The slots through which nodes are replaced, in order. -/
def transformed : List Slot :=
  searched ++ [body, params, expression]

/-- The name of a slot. -/
def label : Slot → String
  | left => "left"
  | op => "op"
  | right => "right"
  | value => "value"
  | args => "args"
  | receiver => "prefix"
  | body => "body"
  | params => "params"
  | expression => "expression"

/-- The slot with the given name. -/
def ofLabel? (text : String) : Option Slot :=
  transformed.find? (·.label == text)

/-- A slot is found by its label. -/
@[simp] theorem ofLabel?_label (slot : Slot) : ofLabel? slot.label = some slot := by
  cases slot <;> decide

end Slot

/-- The parts of a shape in a slot, in source order. -/
def Shape.inSlot {ν : Type} : Slot → Shape ν → List ν
  | .left, .binary _ left _ _ | .left, .assign left _ _ => [left]
  | .op, .binary _ _ op _ | .op, .assign _ op _ => [op]
  | .right, .binary _ _ _ right | .right, .assign _ _ right => [right]
  | .value, .array items | .value, .object items => items
  | .value, .entry _ value | .value, .unary _ value | .value, .constDecl _ value => [value]
  | .value, .returnStmt value | .value, .letDecl _ value => value.toList
  | .args, .call args => args
  | .body, .function _ _ body | .body, .ifStmt _ body _ | .body, .elseIf _ body
  | .body, .elseClause body | .body, .collection _ body => body
  | .params, .function _ params _ => params
  | .expression, .ifStmt condition _ _ | .expression, .elseIf condition _ => [condition]
  | .expression, .computed key => [key]
  | _, _ => []

/-- The shape with the parts in a slot replaced, from the first to the last. -/
def Shape.updateM {m : Type → Type} [Monad m] {ν : Type} (f : ν → m ν) :
    Slot → Shape ν → m (Shape ν)
  | .left, .binary kind left op right => return .binary kind (← f left) op right
  | .left, .assign left op right => return .assign (← f left) op right
  | .op, .binary kind left op right => return .binary kind left (← f op) right
  | .op, .assign left op right => return .assign left (← f op) right
  | .right, .binary kind left op right => return .binary kind left op (← f right)
  | .right, .assign left op right => return .assign left op (← f right)
  | .value, .array items => return .array (← items.mapM f)
  | .value, .object entries => return .object (← entries.mapM f)
  | .value, .entry key value => return .entry key (← f value)
  | .value, .unary kind value => return .unary kind (← f value)
  | .value, .constDecl word value => return .constDecl word (← f value)
  | .value, .returnStmt value => return .returnStmt (← value.mapM f)
  | .value, .letDecl word value => return .letDecl word (← value.mapM f)
  | .args, .call args => return .call (← args.mapM f)
  | .body, .function word params body => return .function word params (← body.mapM f)
  | .body, .ifStmt condition body clauses => return .ifStmt condition (← body.mapM f) clauses
  | .body, .elseIf condition body => return .elseIf condition (← body.mapM f)
  | .body, .elseClause body => return .elseClause (← body.mapM f)
  | .body, .collection word items => return .collection word (← items.mapM f)
  | .params, .function word params body => return .function word (← params.mapM f) body
  | .expression, .ifStmt condition body clauses => return .ifStmt (← f condition) body clauses
  | .expression, .elseIf condition body => return .elseIf (← f condition) body
  | .expression, .computed key => return .computed (← f key)
  | _, shape => return shape

namespace Node

/-- The nodes below a node in a slot. -/
def children (slot : Slot) (node : Node) : List Node :=
  match slot with
  | .receiver => node.receiver.toList
  | _ => node.shape.inSlot slot

/-- The node with the nodes in a slot replaced, from the first to the last. -/
def updateM {m : Type → Type} [Monad m] (f : Node → m Node) (slot : Slot) (node : Node) :
    m Node :=
  match slot with
  | .receiver => return { node with receiver := ← node.receiver.mapM f }
  | _ => return { node with shape := ← node.shape.updateM f slot }

/-- Replaces a node by its image, then the nodes below the image in the same way, down to the
    given number of levels.  The image decides which nodes come next, so that no measure of the
    tree alone bounds the walk. -/
def transformM {m : Type → Type} [Monad m] (f : Node → m Node) : Nat → Node → m Node
  | 0, node => return node
  | levels + 1, node => do
    Slot.transformed.foldlM (fun node slot => node.updateM (transformM f levels) slot) (← f node)

end Node

mutual

/-- The nodes that satisfy a predicate, among a node and those searched below it.  A node comes
    after the nodes below it. -/
def Node.select (p : Node → Bool) (node : Node) : List Node :=
  match node with
  | { shape, position, lineBreaks, text, parenthesized, bracket, receiver } =>
    selectShape p shape ++ selectOption p receiver ++
      (let self : Node :=
        { shape, position, lineBreaks, text, parenthesized, bracket, receiver }
       if p self then [self] else [])
  termination_by structural node

/-- The selected nodes among the searched parts of a shape. -/
def Node.selectShape (p : Node → Bool) (shape : Shape Node) : List Node :=
  match shape with
  | .binary _ left op right => left.select p ++ op.select p ++ right.select p
  | .assign left op right => left.select p ++ op.select p ++ right.select p
  | .array items => selectList p items
  | .object entries => selectList p entries
  | .entry _ value => value.select p
  | .unary _ value => value.select p
  | .constDecl _ value => value.select p
  | .returnStmt value => selectOption p value
  | .letDecl _ value => selectOption p value
  | .call args => selectList p args
  | _ => []
  termination_by structural shape

/-- The selected nodes of a list, in order. -/
def Node.selectList (p : Node → Bool) (nodes : List Node) : List Node :=
  match nodes with
  | [] => []
  | node :: rest => node.select p ++ selectList p rest
  termination_by structural nodes

/-- The selected nodes of an optional node. -/
def Node.selectOption (p : Node → Bool) (node : Option Node) : List Node :=
  match node with
  | none => []
  | some node => node.select p
  termination_by structural node

end

mutual

/-- The number of nodes on the longest way down from a node, the node included. -/
def Node.height (node : Node) : Nat :=
  match node with
  | { shape, receiver, .. } => max (shapeHeight shape) (optionHeight receiver) + 1
  termination_by structural node

/-- The height of the tallest part of a shape. -/
def Node.shapeHeight (shape : Shape Node) : Nat :=
  match shape with
  | .array items => listHeight items
  | .object entries => listHeight entries
  | .entry key value => max key.height value.height
  | .binary _ left op right => max left.height (max op.height right.height)
  | .unary _ value => value.height
  | .call args => listHeight args
  | .computed key => key.height
  | .returnStmt value => optionHeight value
  | .constDecl _ value => value.height
  | .letDecl _ value => optionHeight value
  | .assign left op right => max left.height (max op.height right.height)
  | .ifStmt condition body clauses =>
    max condition.height (max (listHeight body) (listHeight clauses))
  | .elseIf condition body => max condition.height (listHeight body)
  | .elseClause body => listHeight body
  | .function _ params body => max (listHeight params) (listHeight body)
  | .collection _ items => listHeight items
  | _ => 0
  termination_by structural shape

/-- The height of the tallest node of a list. -/
def Node.listHeight (nodes : List Node) : Nat :=
  match nodes with
  | [] => 0
  | node :: rest => max node.height (listHeight rest)
  termination_by structural nodes

/-- The height of an optional node. -/
def Node.optionHeight (node : Option Node) : Nat :=
  match node with
  | none => 0
  | some node => node.height
  termination_by structural node

end

namespace Node

/-- Selection goes through a list of trees one after the other. -/
theorem selectList_eq_flatMap (p : Node → Bool) (nodes : List Node) :
    selectList p nodes = nodes.flatMap (select p) := by
  induction nodes with
  | nil => simp [selectList]
  | cons node rest ih => simp [selectList, ih]

/-- Selection goes through a tree that may be absent if it is there. -/
theorem selectOption_eq_flatMap (p : Node → Bool) (node : Option Node) :
    selectOption p node = node.toList.flatMap (select p) := by
  cases node <;> simp [selectOption]

/-- Selection goes through the searched slots in order and ends with the node itself. -/
theorem select_eq (p : Node → Bool) (node : Node) :
    node.select p =
      (Slot.searched.flatMap (children · node)).flatMap (select p) ++
        if p node then [node] else [] := by
  obtain ⟨shape, _, _, _, _, _, receiver⟩ := node
  rw [select]
  cases shape <;>
    simp [selectShape, children, Slot.searched, Shape.inSlot, selectList_eq_flatMap,
      selectOption_eq_flatMap]

end Node

end Schemata
