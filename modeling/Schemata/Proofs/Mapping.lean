import Schemata.Proofs.Traversal
import Schemata.Proofs.Walk

/-!
# Mapping a tree

`Node.transform` goes through a tree and puts the image of every node that it comes to in its place.
For functions that change only what a node says of itself, and do not look at the nodes below it
(`Node.Local`), this is a functor: the identity gives back the tree, and two walks are one walk by
the composed function (`transform_laws`).
-/

namespace Schemata

/-! ## A node and what is below it -/

/-- The parts that no walk comes to: the key of an entry, and the further clauses of a
    conditional. -/
def Shape.aside {ν : Type} : Shape ν → List ν
  | entry key _ => [key]
  | ifStmt _ _ clauses => clauses
  | _ => []

/-- A shape is its kind, its own data and what is in its slots and beside them. -/
theorem Shape.eq_of_inSlot {μ ν : Type} {f : μ → ν} {a b : Shape μ} (h : a.map f = b.map f)
    (hslots : ∀ slot ≠ .receiver, a.inSlot slot = b.inSlot slot) (haside : a.aside = b.aside) :
    a = b := by
  have hleft := hslots .left (by decide)
  have hop := hslots .op (by decide)
  have hright := hslots .right (by decide)
  have hvalue := hslots .value (by decide)
  have hargs := hslots .args (by decide)
  have hbody := hslots .body (by decide)
  have hparams := hslots .params (by decide)
  have hexpression := hslots .expression (by decide)
  clear hslots
  -- The images differ for two different constructors
  cases a <;> cases b <;> simp only [map, reduceCtorEq] at h <;> simp_all [inSlot, aside]
  case returnStmt.returnStmt | letDecl.letDecl => exact eq_of_toList hvalue

namespace Node

/-- The parts of a node that no walk comes to. -/
def aside (node : Node) : List Node :=
  node.shape.aside

/-- What a node says of itself, with a blank in the place of every node below it. -/
def bare (node : Node) : Node :=
  { node with
    shape := node.shape.map fun _ => default
    receiver := node.receiver.map fun _ => default }

variable {f g : Node → Node}

/-- The children of a node other than its receiver are those of its shape. -/
theorem children_of_ne {slot : Slot} (h : slot ≠ .receiver) (node : Node) :
    node.children slot = node.shape.inSlot slot := by
  cases slot with
  | receiver => exact absurd rfl h
  | _ => rfl

/-- Mapping the children of a node maps what is in each slot. -/
theorem children_mapChildren (slot : Slot) (node : Node) :
    (node.mapChildren f).children slot = (node.children slot).map f := by
  obtain ⟨shape, _, _, _, _, _, receiver⟩ := node
  cases slot <;> cases shape <;>
    simp [mapChildren, children, Shape.inSlot, Shape.mapReached, Shape.map, Option.toList_map]

/-- Mapping the children of a node leaves alone what no walk comes to. -/
@[simp] theorem aside_mapChildren (node : Node) : (node.mapChildren f).aside = node.aside := by
  obtain ⟨shape, _, _, _, _, _, receiver⟩ := node
  cases shape <;> simp [mapChildren, aside, Shape.aside, Shape.mapReached, Shape.map]

/-- Mapping the children of a node changes nothing that it says of itself. -/
@[simp] theorem bare_mapChildren (node : Node) : (node.mapChildren f).bare = node.bare := by
  obtain ⟨shape, _, _, _, _, _, receiver⟩ := node
  cases shape <;>
    simp [mapChildren, bare, Shape.mapReached, Shape.map, Function.comp_def]

/-- A node is what it says of itself and the nodes below it. -/
theorem eq_of_bare {a b : Node} (hbare : a.bare = b.bare)
    (hchildren : ∀ slot, a.children slot = b.children slot) (haside : a.aside = b.aside) :
    a = b := by
  have hreceiver : a.receiver = b.receiver := eq_of_toList (hchildren .receiver)
  have hshape : a.shape = b.shape := by
    refine Shape.eq_of_inSlot (congrArg shape hbare) (fun slot hslot => ?_) haside
    rw [← children_of_ne hslot, ← children_of_ne hslot, hchildren slot]
  obtain ⟨shape, _, _, _, _, _, receiver⟩ := a
  obtain ⟨shape', _, _, _, _, _, receiver'⟩ := b
  simp only [bare, mk.injEq] at hbare
  obtain ⟨-, hposition, hlineBreaks, htext, hparenthesized, hbracket, -⟩ := hbare
  simp only [mk.injEq]
  exact ⟨hshape, hposition, hlineBreaks, htext, hparenthesized, hbracket, hreceiver⟩

/-! ## Local functions -/

/-- A function that changes only what a node says of itself, and does not look at the nodes below
    it. -/
structure Local (f : Node → Node) : Prop where
  children : ∀ node slot, (f node).children slot = node.children slot
  aside : ∀ node, (f node).aside = node.aside
  bare : ∀ {a b : Node}, a.bare = b.bare → (f a).bare = (f b).bare

/-- The identity gives back the tree. -/
theorem transform_id (levels : Nat) (node : Node) : node.transform id levels = node := by
  induction levels generalizing node with
  | zero => rfl
  | succ levels ih =>
    have hmap : transform id levels = id := funext ih
    rw [transform_succ, hmap]
    refine eq_of_bare (bare_mapChildren _) (fun slot => ?_) (aside_mapChildren _)
    rw [children_mapChildren, List.map_id]
    rfl

namespace Local

/-- Two walks, one after the other, are one walk by the composed function. -/
theorem transform_transform (hf : Local f) (hg : Local g) {node : Node}
    {levels₁ levels₂ levels₃ : Nat} (h₁ : node.height ≤ levels₁) (h₂ : node.height ≤ levels₂)
    (h₃ : node.height ≤ levels₃) :
    (node.transform f levels₁).transform g levels₂ = node.transform (g ∘ f) levels₃ := by
  -- Induction on the tree, with enough levels for each walk
  induction node using Node.induction generalizing levels₁ levels₂ levels₃ with
  | step node ih =>
    obtain ⟨levels₁, rfl, hbelow₁⟩ := exists_succ_of_height_le h₁
    obtain ⟨levels₂, rfl, hbelow₂⟩ := exists_succ_of_height_le h₂
    obtain ⟨levels₃, rfl, hbelow₃⟩ := exists_succ_of_height_le h₃
    rw [transform_succ, transform_succ, transform_succ]
    -- The second walk begins with a node whose children are images already, and a local function
    -- does not see them
    apply eq_of_bare
    · rw [bare_mapChildren, bare_mapChildren]
      exact hg.bare (bare_mapChildren _)
    · intro slot
      rw [children_mapChildren, hg.children, children_mapChildren, hf.children, List.map_map,
        children_mapChildren, Function.comp_apply, hg.children, hf.children]
      exact List.map_congr_left fun child hchild =>
        ih child (mem_parts_of_mem_children hchild) (hbelow₁ slot child hchild)
          (hbelow₂ slot child hchild) (hbelow₃ slot child hchild)
    · rw [aside_mapChildren, hg.aside, aside_mapChildren, aside_mapChildren, Function.comp_apply,
        hg.aside]

/-- If every image agrees with its node in some respect, the nodes at the end of one path do. -/
private theorem map_follow?_transform {α : Type} {after before : Node → α} (hf : Local f)
    (hroot : ∀ levels (node : Node), node.height ≤ levels →
      after (node.transform f levels) = before node)
    {levels : Nat} {node : Node} (h : node.height ≤ levels) (path : List Step) :
    ((node.transform f levels).follow? path).map after = (node.follow? path).map before := by
  induction path generalizing node levels with
  | nil => exact congrArg some (hroot levels node h)
  | cons step path ih =>
    obtain ⟨levels, rfl, hbelow⟩ := exists_succ_of_height_le h
    rw [follow?, follow?, transform_succ, children_mapChildren, hf.children,
      List.getElem?_map]
    cases hchild : (node.children step.slot)[step.place]? with
    | none => rfl
    | some child => exact ih (hbelow step.slot child (List.mem_of_getElem? hchild))

/-- What no walk comes to is below every image as it was below its node. -/
theorem map_aside_transform (hf : Local f) {levels : Nat} {node : Node}
    (h : node.height ≤ levels) (path : List Step) :
    ((node.transform f levels).follow? path).map Node.aside =
      (node.follow? path).map Node.aside := by
  refine hf.map_follow?_transform (fun levels node h => ?_) h path
  obtain ⟨levels, rfl, -⟩ := exists_succ_of_height_le h
  rw [transform_succ, aside_mapChildren, hf.aside]

/-- Every image says of itself what the function gives for its node. -/
theorem map_bare_transform (hf : Local f) {levels : Nat} {node : Node}
    (h : node.height ≤ levels) (path : List Step) :
    ((node.transform f levels).follow? path).map Node.bare =
      (node.follow? path).map fun m => (f m).bare := by
  refine hf.map_follow?_transform (fun levels node h => ?_) h path
  obtain ⟨levels, rfl, -⟩ := exists_succ_of_height_le h
  rw [transform_succ, bare_mapChildren]

end Local

/-- The parts of a node are those that a walk comes to and those it does not come to. -/
theorem length_flatMap_parts {α : Type} (f : Node → List α) (node : Node) :
    (node.parts.flatMap f).length =
      (Slot.transformed.flatMap fun slot => (node.children slot).flatMap f).length +
        (node.aside.flatMap f).length := by
  obtain ⟨shape, _, _, _, _, _, receiver⟩ := node
  cases shape <;>
    simp [parts, Shape.parts, Slot.transformed, Slot.searched, children, Shape.inSlot, aside,
      Shape.aside] <;>
    omega

/-- Lists of equal length, item by item, are equally long together. -/
private theorem length_flatMap_congr {α β : Type} {f g : α → List β} {xs : List α}
    (h : ∀ x ∈ xs, (f x).length = (g x).length) :
    (xs.flatMap f).length = (xs.flatMap g).length := by
  rw [List.length_flatMap, List.length_flatMap, List.map_congr_left h]

/-- A walk by a local function changes the number of nodes nowhere. -/
theorem Local.length_subtrees_transform (hf : Local f) (levels : Nat) (node : Node) :
    (node.transform f levels).subtrees.length = node.subtrees.length := by
  induction levels generalizing node with
  | zero => rfl
  | succ levels ih =>
    have hslot : ∀ slot, (((node.children slot).map (transform f levels)).flatMap subtrees).length =
        ((node.children slot).flatMap subtrees).length := fun slot => by
      rw [List.flatMap_map]
      exact length_flatMap_congr fun child _ => ih child
    rw [subtrees_eq, subtrees_eq node, List.length_cons, List.length_cons, length_flatMap_parts,
      length_flatMap_parts, transform_succ, aside_mapChildren, hf.aside]
    simp only [children_mapChildren, hf.children]
    rw [length_flatMap_congr fun slot _ => hslot slot]

/-- Renaming is local. -/
theorem local_rename (r : String → String) : Local (rename r) where
  children node slot := by
    obtain ⟨shape, _, _, _, _, _, _⟩ := node
    cases slot <;> cases shape <;> rfl
  aside node := by
    obtain ⟨shape, _, _, _, _, _, _⟩ := node
    cases shape <;> rfl
  bare {a b} h := by
    have hrename : ∀ node : Node, (node.rename r).bare = node.bare.rename r := by
      rintro ⟨shape, _, _, _, _, _, _⟩
      cases shape <;> rfl
    rw [hrename, hrename, h]

end Node

/-- Walks obey the laws of a functor: a walk that replaces every node by itself gives back the tree,
    and for local functions a walk after a walk is a walk by the composed function.  A walk by a
    local function keeps the number of nodes and, at the end of every path, what no walk comes to;
    what the node there says of itself is what the function gives for it. -/
theorem transform_laws (node : Node) :
    (∀ levels, node.transform id levels = node) ∧
    ∀ {f : Node → Node}, Node.Local f →
      (∀ {g : Node → Node}, Node.Local g → ∀ levels₁ levels₂ levels₃, node.height ≤ levels₁ →
        node.height ≤ levels₂ → node.height ≤ levels₃ →
          (node.transform f levels₁).transform g levels₂ = node.transform (g ∘ f) levels₃) ∧
      ∀ levels, node.height ≤ levels →
        (∀ path, ((node.transform f levels).follow? path).map Node.bare =
          (node.follow? path).map fun m => (f m).bare) ∧
        (∀ path, ((node.transform f levels).follow? path).map Node.aside =
          (node.follow? path).map Node.aside) ∧
        (node.transform f levels).subtrees.length = node.subtrees.length := by
  refine ⟨fun levels => Node.transform_id levels node, fun hf => ⟨?_, ?_⟩⟩
  · exact fun hg levels₁ levels₂ levels₃ h₁ h₂ h₃ => hf.transform_transform hg h₁ h₂ h₃
  · exact fun levels h => ⟨hf.map_bare_transform h, hf.map_aside_transform h,
      hf.length_subtrees_transform levels node⟩

/-- Names are replaced, then texts are cleared: the key of the entry keeps both. -/
theorem transform_laws_entry :
    let rename := Node.rename fun _ => "x"
    let clear := fun node : Node => { node with text := "" }
    let key : Node := { Node.ofShape (.name "a") .start with text := "a" }
    let entry : Node := .ofShape (.entry key key) .start
    let object : Node := .ofShape (.object [entry]) .start
    Node.Local rename ∧ Node.Local clear ∧ object.height ≤ 3 ∧
      (object.transform rename 3).transform clear 4 = object.transform (clear ∘ rename) 5 ∧
      ((object.transform rename 3).follow? [⟨.value, 0⟩]).map Node.aside = some [key] ∧
      (object.transform rename 3).subtrees.length = 4 := by
  intro rename clear key entry object
  have hrename : Node.Local rename := Node.local_rename _
  have hclear : Node.Local clear :=
    { children := fun node slot => by cases slot <;> rfl
      aside := fun node => rfl
      bare := fun h => congrArg clear h }
  have hheight : object.height ≤ 3 := by decide
  -- The entry has its name twice, and only the one that is reached is replaced
  obtain ⟨hcompose, hkeep⟩ := (transform_laws object).2 hrename
  obtain ⟨-, haside, hlength⟩ := hkeep 3 hheight
  exact ⟨hrename, hclear, hheight,
    hcompose hclear 3 4 5 hheight (Nat.le_succ_of_le hheight) (by decide),
    haside [⟨.value, 0⟩], hlength⟩

end Schemata
