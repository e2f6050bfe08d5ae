import Schemata.Node.Same

/-!
# Trees as a whole

What holds of a node is mostly said of the node and of its `parts`, the nodes right below it: its
receiver and the parts of its shape, whatever slot they stand in.  This file has the tools for
passing from there to the whole tree:

- `Node.induction`: what holds of a node whenever it holds of its parts holds of every node
- `Node.fold`: a value for every node from the values of its parts
- `Node.subtrees`: a node and all nodes below it
- `Node.erase`: a node without position, line breaks and text, and `same_iff_erase`: two nodes are
  the same exactly when erasure makes them equal
-/

namespace Schemata

/-! ## One level of a tree -/

/-- An option is what is in its list. -/
theorem eq_of_toList {α : Type} {a b : Option α} (h : a.toList = b.toList) : a = b := by
  cases a <;> cases b <;> simp_all

namespace Shape

variable {μ ν : Type}

/-- The parts of a shape, in source order. -/
def parts : Shape ν → List ν
  | array items => items
  | object entries => entries
  | entry key value => [key, value]
  | binary _ left op right => [left, op, right]
  | unary _ value => [value]
  | call args => args
  | computed key => [key]
  | returnStmt value => value.toList
  | constDecl _ value => [value]
  | letDecl _ value => value.toList
  | assign left op right => [left, op, right]
  | ifStmt condition body clauses => condition :: (body ++ clauses)
  | elseIf condition body => condition :: body
  | elseClause body => body
  | function _ params body => params ++ body
  | collection _ items => items
  | _ => []

/-- The shape with every part replaced by its image. -/
def map (f : μ → ν) : Shape μ → Shape ν
  | array items => array (items.map f)
  | object entries => object (entries.map f)
  | entry key value => entry (f key) (f value)
  | number literal => number literal
  | string value => string value
  | boolean value => boolean value
  | binary kind left op right => binary kind (f left) (f op) (f right)
  | operator op => operator op
  | unary kind value => unary kind (f value)
  | name word => name word
  | call args => call (args.map f)
  | computed key => computed (f key)
  | returnStmt value => returnStmt (value.map f)
  | constDecl word value => constDecl word (f value)
  | letDecl word value => letDecl word (value.map f)
  | assign left op right => assign (f left) (f op) (f right)
  | ifStmt condition body clauses => ifStmt (f condition) (body.map f) (clauses.map f)
  | elseIf condition body => elseIf (f condition) (body.map f)
  | elseClause body => elseClause (body.map f)
  | function word params body => function word (params.map f) (body.map f)
  | param word type optional => param word type optional
  | field word type required => field word type required
  | index fields => index fields
  | collection word items => collection word (items.map f)

/-- The parts of an image are the images of the parts. -/
@[simp] theorem parts_map (f : μ → ν) (shape : Shape μ) :
    (shape.map f).parts = shape.parts.map f := by
  cases shape <;> simp [map, parts, Option.toList_map]

/-- The image of an image is the image under both functions. -/
theorem map_map {ξ : Type} (f : μ → ν) (g : ν → ξ) (shape : Shape μ) :
    (shape.map f).map g = shape.map fun part => g (f part) := by
  cases shape <;> simp [map, Function.comp_def]

/-- Shapes are equal if their parts are and they look alike otherwise. -/
theorem eq_of_parts {f : μ → ν} {a b : Shape μ} (h : a.map f = b.map f)
    (hparts : a.parts = b.parts) : a = b := by
  cases a <;> cases b <;> simp only [map, reduceCtorEq] at h
  -- What the parts alone do not tell, where they are cut into slots, the images tell
  case ifStmt body _ _ body' _ =>
    have hlength : body.length = body'.length := by
      simpa using congrArg List.length (Shape.ifStmt.inj h).2.1
    obtain ⟨rfl, htail⟩ := List.cons.inj hparts
    obtain ⟨rfl, rfl⟩ := List.append_inj htail hlength
    rfl
  case function params _ _ params' _ =>
    obtain ⟨rfl, hparams, -⟩ := Shape.function.inj h
    have hlength : params.length = params'.length := by simpa using congrArg List.length hparams
    obtain ⟨rfl, rfl⟩ := List.append_inj hparts hlength
    rfl
  all_goals simp_all [parts]
  case returnStmt | letDecl => exact eq_of_toList hparts

/-- The image depends only on what happens to the parts. -/
theorem map_congr {f g : μ → ν} {shape : Shape μ} (h : ∀ part ∈ shape.parts, f part = g part) :
    shape.map f = shape.map g := by
  cases shape <;> simp_all [map, parts]
  case returnStmt value | letDecl _ value =>
    cases value with
    | none => rfl
    | some part => rw [Option.map_some, Option.map_some, h part rfl]

end Shape

namespace Node

/-- The nodes right below a node: its receiver, then the parts of its shape. -/
def parts (node : Node) : List Node :=
  node.receiver.toList ++ node.shape.parts

/-- The parts of a node are its receiver and the parts of its shape. -/
@[simp] theorem parts_mk (shape : Shape Node) (p : Position) (b : Nat) (x : String)
    (parenthesized bracket : Bool) (receiver : Option Node) :
    (Node.mk shape p b x parenthesized bracket receiver).parts =
      receiver.toList ++ shape.parts := rfl

/-- The parts of a shape are smaller than the shape. -/
private theorem sizeOf_lt_of_mem_shape {node : Node} {shape : Shape Node}
    (h : node ∈ shape.parts) : sizeOf node < sizeOf shape := by
  -- A part in a list is smaller than the list, and the list is smaller than the shape
  cases shape <;> simp only [Shape.parts, List.mem_append, List.mem_cons, List.not_mem_nil,
    or_false, Option.mem_toList] at h
  case array | object | call | elseClause | collection =>
    have := List.sizeOf_lt_of_mem h
    simp; omega
  case entry => obtain rfl | rfl := h <;> (simp only [Shape.entry.sizeOf_spec]; omega)
  case binary | assign => obtain rfl | rfl | rfl := h <;> simp <;> omega
  case computed => subst h; simp
  case unary | constDecl | returnStmt | letDecl =>
    subst h
    simp only [Shape.unary.sizeOf_spec, Shape.constDecl.sizeOf_spec, Shape.returnStmt.sizeOf_spec,
      Shape.letDecl.sizeOf_spec, Option.some.sizeOf_spec]
    omega
  case ifStmt =>
    obtain rfl | h | h := h
    · simp; omega
    all_goals have := List.sizeOf_lt_of_mem h; simp; omega
  case elseIf =>
    obtain rfl | h := h
    · simp; omega
    · have := List.sizeOf_lt_of_mem h
      simp; omega
  case function =>
    obtain h | h := h
    all_goals have := List.sizeOf_lt_of_mem h; simp; omega

/-- The parts of a node are smaller than the node. -/
theorem sizeOf_lt_of_mem_parts {part node : Node} (h : part ∈ node.parts) :
    sizeOf part < sizeOf node := by
  obtain ⟨shape, p, b, x, parenthesized, bracket, receiver⟩ := node
  simp only [parts, List.mem_append, Option.mem_toList] at h
  obtain rfl | h := h
  · simp; omega
  · have := sizeOf_lt_of_mem_shape h
    simp; omega

/-- What holds of a node whenever it holds of its parts holds of every node. -/
@[elab_as_elim]
theorem induction {motive : Node → Prop}
    (step : ∀ node : Node, (∀ part ∈ node.parts, motive part) → motive node) (node : Node) :
    motive node :=
  step node fun part _ => induction step part
termination_by sizeOf node
decreasing_by exact sizeOf_lt_of_mem_parts ‹_›

end Node

/-! ## Folding a tree -/

mutual

/-- A value for a node, from the node itself and from its parts with their values. -/
def Node.fold {α : Type} (f : Node → Shape (Node × α) → Option (Node × α) → α) (node : Node) : α :=
  match node with
  | { shape, position, lineBreaks, text, parenthesized, bracket, receiver } =>
    f { shape, position, lineBreaks, text, parenthesized, bracket, receiver }
      (foldShape f shape) (foldOption f receiver)
  termination_by structural node

/-- A shape with the values of its parts. -/
def Node.foldShape {α : Type} (f : Node → Shape (Node × α) → Option (Node × α) → α)
    (shape : Shape Node) : Shape (Node × α) :=
  match shape with
  | .array items => .array (foldList f items)
  | .object entries => .object (foldList f entries)
  | .entry key value => .entry (key, key.fold f) (value, value.fold f)
  | .number literal => .number literal
  | .string value => .string value
  | .boolean value => .boolean value
  | .binary kind left op right =>
    .binary kind (left, left.fold f) (op, op.fold f) (right, right.fold f)
  | .operator op => .operator op
  | .unary kind value => .unary kind (value, value.fold f)
  | .name word => .name word
  | .call args => .call (foldList f args)
  | .computed key => .computed (key, key.fold f)
  | .returnStmt value => .returnStmt (foldOption f value)
  | .constDecl word value => .constDecl word (value, value.fold f)
  | .letDecl word value => .letDecl word (foldOption f value)
  | .assign left op right => .assign (left, left.fold f) (op, op.fold f) (right, right.fold f)
  | .ifStmt condition body clauses =>
    .ifStmt (condition, condition.fold f) (foldList f body) (foldList f clauses)
  | .elseIf condition body => .elseIf (condition, condition.fold f) (foldList f body)
  | .elseClause body => .elseClause (foldList f body)
  | .function word params body => .function word (foldList f params) (foldList f body)
  | .param word type optional => .param word type optional
  | .field word type required => .field word type required
  | .index fields => .index fields
  | .collection word items => .collection word (foldList f items)
  termination_by structural shape

/-- The nodes of a list with their values. -/
def Node.foldList {α : Type} (f : Node → Shape (Node × α) → Option (Node × α) → α)
    (nodes : List Node) : List (Node × α) :=
  match nodes with
  | [] => []
  | node :: rest => (node, node.fold f) :: foldList f rest
  termination_by structural nodes

/-- An optional node with its value. -/
def Node.foldOption {α : Type} (f : Node → Shape (Node × α) → Option (Node × α) → α)
    (node : Option Node) : Option (Node × α) :=
  match node with
  | none => none
  | some node => some (node, node.fold f)
  termination_by structural node

end

namespace Node

section Fold

variable {α : Type} (f : Node → Shape (Node × α) → Option (Node × α) → α)

/-- Folding a list of trees folds each of them. -/
private theorem foldList_eq_map (nodes : List Node) :
    foldList f nodes = nodes.map fun node => (node, node.fold f) := by
  induction nodes with
  | nil => simp [foldList]
  | cons node rest ih => simp [foldList, ih]

/-- Folding a part that may be absent folds it if it is there. -/
private theorem foldOption_eq_map (node : Option Node) :
    foldOption f node = node.map fun node => (node, node.fold f) := by
  cases node <;> simp [foldOption]

/-- Folding a shape folds its parts. -/
private theorem foldShape_eq_map (shape : Shape Node) :
    foldShape f shape = shape.map fun node => (node, node.fold f) := by
  cases shape <;> simp [foldShape, Shape.map, foldList_eq_map, foldOption_eq_map]

/-- Folding a node is folding its parts and then taking one step. -/
theorem fold_eq (node : Node) :
    node.fold f =
      f node (node.shape.map fun part => (part, part.fold f))
        (node.receiver.map fun part => (part, part.fold f)) := by
  obtain ⟨shape, p, b, x, parenthesized, bracket, receiver⟩ := node
  rw [fold, foldShape_eq_map, foldOption_eq_map]

end Fold

/-! ## All nodes of a tree -/

/-- A node and all nodes below it, each before the nodes below it. -/
def subtrees (node : Node) : List Node :=
  node.fold fun node shape receiver =>
    node :: (receiver.toList ++ shape.parts).flatMap Prod.snd

/-- The nodes of a tree are its root and the nodes of its parts. -/
theorem subtrees_eq (node : Node) :
    node.subtrees = node :: node.parts.flatMap subtrees := by
  rw [subtrees, fold_eq]
  simp only [Shape.parts_map, Option.toList_map, ← List.map_append, List.flatMap_map]
  rfl

/-- What holds of all nodes of a tree holds of its root and of all nodes of its parts. -/
theorem forall_subtrees_iff {p : Node → Prop} {node : Node} :
    (∀ m ∈ node.subtrees, p m) ↔ p node ∧ ∀ part ∈ node.parts, ∀ m ∈ part.subtrees, p m := by
  rw [subtrees_eq]
  simp only [List.mem_cons, List.mem_flatMap, forall_eq_or_imp]
  constructor
  · rintro ⟨h, hs⟩
    exact ⟨h, fun part hp m hm => hs m ⟨part, hp, hm⟩⟩
  · rintro ⟨h, hs⟩
    refine ⟨h, ?_⟩
    rintro m ⟨part, hp, hm⟩
    exact hs part hp m hm

/-! ## Erasure -/

/-- The node without what it says about its source, all the way down. -/
def erase (node : Node) : Node :=
  node.fold fun node shape receiver =>
    { shape := shape.map Prod.snd
      position := Position.start
      lineBreaks := 0
      text := ""
      parenthesized := node.parenthesized
      bracket := node.bracket
      receiver := receiver.map Prod.snd }

/-- A node is erased by erasing its parts and dropping what it notes about its source. -/
theorem erase_eq (node : Node) :
    node.erase =
      ⟨node.shape.map erase, Position.start, 0, "", node.parenthesized, node.bracket,
        node.receiver.map erase⟩ := by
  rw [erase, fold_eq]
  simp only [Shape.map_map, Option.map_map]
  rfl

/-- The same for a node given by its fields. -/
@[simp] theorem erase_mk (shape : Shape Node) (p : Position) (b : Nat) (x : String)
    (parenthesized bracket : Bool) (receiver : Option Node) :
    (Node.mk shape p b x parenthesized bracket receiver).erase =
      ⟨shape.map erase, Position.start, 0, "", parenthesized, bracket, receiver.map erase⟩ :=
  erase_eq _

/-- Erasing twice is erasing once. -/
@[simp] theorem erase_erase (node : Node) : node.erase.erase = node.erase := by
  induction node using Node.induction with
  | step node ih =>
    -- The parts are erased twice as well, by induction
    have hshape : node.shape.map (fun part => part.erase.erase) = node.shape.map erase :=
      Shape.map_congr fun part hp => ih part (List.mem_append_right _ hp)
    have hreceiver : ∀ part, node.receiver = some part → part.erase.erase = part.erase :=
      fun part hp => ih part (by simp [parts, hp])
    rw [erase_eq node, erase_mk, Shape.map_map, hshape]
    cases hr : node.receiver with
    | none => rfl
    | some receiver => simp [hreceiver receiver hr]

/-- Whether a node may be assigned to does not depend on where it was read. -/
@[simp] theorem isAssignable_erase (node : Node) : node.erase.isAssignable = node.isAssignable := by
  obtain ⟨shape, p, b, x, parenthesized, bracket, receiver⟩ := node
  cases shape <;> simp [isAssignable, Shape.map]

/-- The name of a node does not depend on where it was read. -/
@[simp] theorem name?_erase (node : Node) : node.erase.name? = node.name? := by
  obtain ⟨shape, p, b, x, parenthesized, bracket, receiver⟩ := node
  cases shape <;> simp [name?, Shape.map]

/-- A link is erased by erasing the node and its receiver. -/
theorem erase_chainedFrom (node receiver : Node) :
    (node.chainedFrom receiver).erase = node.erase.chainedFrom receiver.erase := by
  rw [chainedFrom, erase_mk, erase_eq node]
  rfl

/-- Bracketing does not look at what is erased. -/
theorem erase_bracketed (key object : Node) :
    (key.bracketed object).erase = key.erase.bracketed object.erase := by
  obtain ⟨shape, p, b, x, parenthesized, bracket, receiver⟩ := key
  simp only [bracketed, erase_mk, Option.isSome_map]
  split <;> simp [ofShape, Shape.map]

/-- Lists of nodes are the same exactly when their erasures are equal, if that holds of each node
    of the first. -/
private theorem sameList_iff {as : List Node}
    (h : ∀ a ∈ as, ∀ b, a.same b = true ↔ a.erase = b.erase) (bs : List Node) :
    sameList as bs = true ↔ as.map erase = bs.map erase := by
  induction as generalizing bs with
  | nil => cases bs <;> simp [sameList]
  | cons a as ih =>
    cases bs with
    | nil => simp [sameList]
    | cons b bs =>
      simp [sameList, h a (by simp) b, ih (fun a ha => h a (by simp [ha]))]

/-- Parts that may be absent are the same exactly when their erasures are equal. -/
private theorem sameOption_iff {a : Option Node}
    (h : ∀ m ∈ a, ∀ b, m.same b = true ↔ m.erase = b.erase) (b : Option Node) :
    sameOption a b = true ↔ a.map erase = b.map erase := by
  cases a <;> cases b <;> simp_all [sameOption]

/-- Shapes are the same exactly when their erasures are equal, if that holds of the parts. -/
private theorem sameShape_iff {shape : Shape Node}
    (h : ∀ a ∈ shape.parts, ∀ b, a.same b = true ↔ a.erase = b.erase) (other : Shape Node) :
    sameShape shape other = true ↔ shape.map erase = other.map erase := by
  -- Shapes of two different constructors are neither the same nor have equal images
  cases shape <;> cases other <;>
    simp only [sameShape, Shape.map, Bool.false_eq_true, reduceCtorEq] <;>
    simp_all [Shape.parts, sameList_iff, sameOption_iff, and_assoc]

/-- Two nodes are the same exactly when erasure makes them equal. -/
theorem same_iff_erase {a b : Node} : a.same b = true ↔ a.erase = b.erase := by
  -- The shape and the receiver are compared part by part, so the parts decide by induction
  induction a using Node.induction generalizing b with
  | step a ih =>
    obtain ⟨shape, p, n, x, parenthesized, bracket, receiver⟩ := a
    have hshape := @sameShape_iff shape (fun m hm b => ih m (by simp [hm]))
    have hreceiver := @sameOption_iff receiver (fun m hm b => ih m (by simp_all))
    rw [same, erase_eq b]
    simp [hshape, hreceiver, and_assoc]

/-- Erasure keeps whether two nodes are the same. -/
@[simp] theorem same_erase (a b : Node) : a.erase.same b.erase = a.same b := by
  rw [Bool.eq_iff_iff, same_iff_erase, same_iff_erase, erase_erase, erase_erase]

/-- Lists of nodes are the same exactly when their erasures are equal. -/
theorem sameList_iff_erase {as bs : List Node} :
    sameList as bs = true ↔ as.map erase = bs.map erase :=
  sameList_iff (fun _ _ _ => same_iff_erase) bs

/-- The parts of an erased node are the erased parts. -/
theorem parts_erase (node : Node) : node.erase.parts = node.parts.map erase := by
  simp [erase_eq node, parts, Option.toList_map]

/-- Erasure keeps the nodes of a tree where they are. -/
theorem subtrees_erase (node : Node) : node.erase.subtrees = node.subtrees.map erase := by
  induction node using Node.induction with
  | step node ih =>
    rw [subtrees_eq, subtrees_eq node, parts_erase, List.map_cons, List.flatMap_map,
      List.map_flatMap]
    -- Both sides now go through the parts of the node in the same order
    rw [List.flatMap_def, List.flatMap_def, List.map_congr_left ih]

/-! ## Equality -/

/-- What a node says about its source, and erasure takes away. -/
def origin (node : Node) : Position × Nat × String :=
  (node.position, node.lineBreaks, node.text)

/-- What all nodes of a list of trees say about their source. -/
def origins (nodes : List Node) : List (Position × Nat × String) :=
  nodes.flatMap fun node => node.subtrees.map origin

/-- Lists of trees are equal if they look alike and come from the same places, given that this
    tells each tree of the first list. -/
private theorem eq_of_origins {as : List Node}
    (h : ∀ a ∈ as, ∀ b : Node, a.erase = b.erase →
      a.subtrees.map origin = b.subtrees.map origin → a = b) {bs : List Node}
    (herase : as.map erase = bs.map erase) (horigins : origins as = origins bs) : as = bs := by
  induction as generalizing bs with
  | nil =>
    cases bs with
    | nil => rfl
    | cons b bs => cases herase
  | cons a as ih =>
    cases bs with
    | nil => cases herase
    | cons b bs =>
      obtain ⟨hfirst, hrest⟩ := List.cons.inj herase
      -- Trees that look alike have as many nodes, so the places of the first can be told apart
      have hlength : (a.subtrees.map origin).length = (b.subtrees.map origin).length := by
        simpa [subtrees_erase] using congrArg (fun node => node.subtrees.length) hfirst
      rw [origins, List.flatMap_cons, origins, List.flatMap_cons] at horigins
      obtain ⟨hhead, htail⟩ := List.append_inj horigins hlength
      rw [h a List.mem_cons_self b hfirst hhead, ih (fun m hm => h m (.tail _ hm)) hrest htail]

/-- A tree is what is left of it by erasure, and what its nodes say about the source. -/
theorem eq_of_origin {a b : Node} (herase : a.erase = b.erase)
    (horigin : a.subtrees.map origin = b.subtrees.map origin) : a = b := by
  induction a using Node.induction generalizing b with
  | step a ih =>
    rw [subtrees_eq, subtrees_eq b, List.map_cons, List.map_cons, List.map_flatMap,
      List.map_flatMap] at horigin
    obtain ⟨hself, hbelow⟩ := List.cons.inj horigin
    have hparts : a.parts = b.parts := by
      refine eq_of_origins (fun part hpart other => ih part hpart) ?_ hbelow
      rw [← parts_erase, ← parts_erase, herase]
    obtain ⟨shape, p, n, x, parenthesized, bracket, receiver⟩ := a
    obtain ⟨shape', p', n', x', parenthesized', bracket', receiver'⟩ := b
    simp only [erase_mk, mk.injEq, true_and] at herase
    obtain ⟨hshape, rfl, rfl, hreceiver⟩ := herase
    obtain ⟨rfl, rfl, rfl⟩ : p = p' ∧ n = n' ∧ x = x' := by simpa [origin] using hself
    -- There is a receiver on both sides or on none, so the parts of the shapes can be told
    have hlength : receiver.toList.length = receiver'.toList.length := by
      cases receiver <;> cases receiver' <;> simp_all
    obtain ⟨hfirst, hrest⟩ := List.append_inj hparts hlength
    obtain rfl : receiver = receiver' := eq_of_toList hfirst
    rw [Shape.eq_of_parts hshape hrest]

/-- Lists of trees are equal if they are the same and come from the same places. -/
theorem eq_of_sameList {as bs : List Node} (hsame : sameList as bs = true)
    (horigins : origins as = origins bs) : as = bs :=
  eq_of_origins (fun _ _ _ => eq_of_origin) (sameList_iff_erase.1 hsame) horigins

end Node

end Schemata
