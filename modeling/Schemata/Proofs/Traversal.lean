import Schemata.Node.Path
import Schemata.Proofs.Height

/-!
# Traversal

A walk through some of the slots comes to each node below a tree by one path.  `Enumerates` says
what it is to list these nodes once each, slot after slot, with every node before the nodes below it
(pre-order) or after them (post-order); there is one such list (`Enumerates.unique`).

`Node.select` goes through its list in post-order, and `Node.transformM` through another in
pre-order, to which the first belongs (`select_enumerates`).
-/

namespace Schemata

/-! ## Orders of a walk -/

/-- Whether a walk comes to a node before it comes to the nodes below it. -/
inductive Order where
  | pre
  | post
  deriving DecidableEq, Repr

/-- What is met at a node put together with what is met below it. -/
def Order.arrange {α : Type} (order : Order) (self : α) (below : List α) : List α :=
  match order with
  | pre => self :: below
  | post => below ++ [self]

namespace Order

variable {α β : Type} {order : Order} {self : α} {below : List α}

@[simp] theorem mem_arrange {a : α} : a ∈ order.arrange self below ↔ a = self ∨ a ∈ below := by
  cases order <;> simp [arrange, or_comm]

/-- The images of what is arranged are arranged the same way. -/
theorem map_arrange (f : α → β) :
    (order.arrange self below).map f = order.arrange (f self) (below.map f) := by
  cases order <;> simp [arrange]

end Order

/-- A step goes to a slot that comes earlier, or to an earlier place in the same slot. -/
def Step.Before (slots : List Slot) (a b : Step) : Prop :=
  slots.idxOf a.slot < slots.idxOf b.slot ∨ a.slot = b.slot ∧ a.place < b.place

/-- A walk through the slots comes to the end of one path before it comes to that of another. -/
inductive Precedes (slots : List Slot) : Order → List Step → List Step → Prop
  | above (step : Step) (path : List Step) : Precedes slots .pre [] (step :: path)
  | under (step : Step) (path : List Step) : Precedes slots .post (step :: path) []
  | beside {order : Order} {a b : Step} (h : a.Before slots b) (p q : List Step) :
      Precedes slots order (a :: p) (b :: q)
  | inside {order : Order} {p q : List Step} (step : Step) (h : Precedes slots order p q) :
      Precedes slots order (step :: p) (step :: q)

section

variable {slots : List Slot} {order : Order} {p q : List Step}

/-- Of two steps at most one comes before the other. -/
theorem Step.Before.asymm {a b : Step} (h : a.Before slots b) : ¬b.Before slots a := by
  rintro (h' | ⟨hslot', hplace'⟩) <;> rcases h with h | ⟨hslot, hplace⟩
  · omega
  · rw [hslot] at h'
    omega
  · rw [hslot'] at h
    omega
  · omega

/-- Of two paths at most one comes before the other. -/
theorem Precedes.asymm (h : Precedes slots order p q) : ¬Precedes slots order q p := by
  -- Two paths that go on the same way are told apart by what comes after, hence the induction
  induction h with
  | above | under => rintro ⟨⟩
  | beside h p q =>
    intro h'
    cases h' with
    | beside h' => exact h.asymm h'
    | inside => exact h.asymm h
  | inside step h ih =>
    intro h'
    cases h' with
    | beside h' => exact h'.asymm h'
    | inside _ h' => exact ih h'

/-- No path comes before itself. -/
theorem Precedes.ne (h : Precedes slots order p q) : p ≠ q := by
  rintro rfl
  exact h.asymm h

end

/-! ## Enumerations -/

/-- A list of all nodes that a walk through the slots comes to, each with the path to it. -/
structure Enumerates (order : Order) (slots : List Slot) (node : Node)
    (visits : List (List Step × Node)) : Prop where
  /-- The paths are those through the slots that lead to a node. -/
  mem_iff : ∀ path m, (path, m) ∈ visits ↔
    (∀ step ∈ path, step.slot ∈ slots) ∧ node.follow? path = some m
  /-- The walk comes to each of them once. -/
  nodup : (visits.map Prod.fst).Nodup
  /-- They stand in the order of the walk. -/
  sorted : visits.Pairwise fun a b => Precedes slots order a.1 b.1

/-- There are no two lists of that kind. -/
theorem Enumerates.unique {order : Order} {slots : List Slot} {node : Node}
    {visits visits' : List (List Step × Node)} (h : Enumerates order slots node visits)
    (h' : Enumerates order slots node visits') : visits = visits' := by
  have hnodup : ∀ {visits}, Enumerates order slots node visits → visits.Nodup := fun h =>
    h.sorted.imp fun hab heq => hab.ne (congrArg Prod.fst heq)
  have hperm : visits.Perm visits' :=
    (List.perm_ext_iff_of_nodup (hnodup h) (hnodup h')).2 fun (path, m) =>
      (h.mem_iff path m).trans (h'.mem_iff path m).symm
  exact hperm.eq_of_pairwise (fun a b _ _ hab hba => absurd hba hab.asymm) h.sorted h'.sorted

/-- A slot comes before the slots after it. -/
theorem pairwise_idxOf {slots : List Slot} (h : slots.Nodup) :
    slots.Pairwise fun a b => slots.idxOf a < slots.idxOf b := by
  rw [List.pairwise_iff_getElem]
  intro i j hi hj hij
  rwa [h.idxOf_getElem, h.idxOf_getElem]

/-- The parts of a node in a slot, for a node whose parts are of any type. -/
def Slot.parts {ν : Type} (slot : Slot) (shape : Shape ν) (receiver : Option ν) : List ν :=
  match slot with
  | .receiver => receiver.toList
  | _ => shape.inSlot slot

/-- The parts in a slot go along with the images of the parts. -/
theorem Slot.parts_map {μ ν : Type} (f : μ → ν) (slot : Slot) (shape : Shape μ)
    (receiver : Option μ) :
    slot.parts (shape.map f) (receiver.map f) = (slot.parts shape receiver).map f := by
  cases slot <;> cases shape <;> simp [parts, Shape.inSlot, Shape.map, Option.toList_map]

namespace Node

variable {slot : Slot} {order : Order} {slots : List Slot} {node : Node}

/-- The children of a node in a slot are the parts of the node there. -/
theorem children_eq (slot : Slot) (node : Node) :
    node.children slot = slot.parts node.shape node.receiver := by
  cases slot <;> rfl

/-- Every child of a node is one of its parts. -/
theorem mem_parts_of_mem_children {child : Node} (h : child ∈ node.children slot) :
    child ∈ node.parts := by
  obtain ⟨shape, _, _, _, _, _, receiver⟩ := node
  cases slot <;> cases shape <;> simp_all [children, Shape.inSlot, parts, Shape.parts]

/-- A number of levels that is enough for a node is one more than what is enough below it. -/
theorem exists_succ_of_height_le {node : Node} {levels : Nat} (h : node.height ≤ levels) :
    ∃ below, levels = below + 1 ∧ ∀ slot, ∀ child ∈ node.children slot, child.height ≤ below := by
  cases levels with
  | zero =>
    rw [height_eq] at h
    cases h
  | succ below =>
    refine ⟨below, rfl, fun slot child hchild => ?_⟩
    have hlt := height_lt_of_mem_parts (mem_parts_of_mem_children hchild)
    omega

/-- The nodes that a walk through the slots comes to, with the paths to them. -/
def visits (order : Order) (slots : List Slot) (node : Node) : List (List Step × Node) :=
  node.fold fun node shape receiver =>
    order.arrange ([], node) <| slots.flatMap fun slot =>
      (slot.parts shape receiver).zipIdx.flatMap fun (part, place) =>
        part.2.map fun (path, m) => (⟨slot, place⟩ :: path, m)

/-- The nodes that the walk comes to below a node. -/
def visitsBelow (order : Order) (slots : List Slot) (node : Node) : List (List Step × Node) :=
  slots.flatMap fun slot =>
    (node.children slot).zipIdx.flatMap fun (child, place) =>
      (child.visits order slots).map fun (path, m) => (⟨slot, place⟩ :: path, m)

/-- A walk meets a node before or after what it meets below it. -/
theorem visits_eq (node : Node) :
    node.visits order slots = order.arrange ([], node) (node.visitsBelow order slots) := by
  rw [visits, fold_eq]
  simp only [visitsBelow, Slot.parts_map, children_eq, List.zipIdx_map, List.flatMap_map]
  rfl

/-- What is met below a node is met below one of its children. -/
theorem mem_visitsBelow {visit : List Step × Node} :
    visit ∈ node.visitsBelow order slots ↔
      ∃ step path child, visit.1 = step :: path ∧ step.slot ∈ slots ∧
        (node.children step.slot)[step.place]? = some child ∧
          (path, visit.2) ∈ child.visits order slots := by
  simp only [visitsBelow, List.mem_flatMap, List.mem_map, Prod.exists,
    List.mk_mem_zipIdx_iff_getElem?]
  constructor
  · rintro ⟨slot, hslot, child, place, hchild, path, m, hvisit, rfl⟩
    exact ⟨⟨slot, place⟩, path, child, rfl, hslot, hchild, hvisit⟩
  · rintro ⟨⟨slot, place⟩, path, child, hpath, hslot, hchild, hvisit⟩
    exact ⟨slot, hslot, child, place, hchild, path, visit.2, hvisit, Prod.ext hpath.symm rfl⟩

/-- A path leads on from the child that its first step goes to. -/
theorem follow?_cons_eq_some {step : Step} {path : List Step} {m : Node} :
    node.follow? (step :: path) = some m ↔
      ∃ child, (node.children step.slot)[step.place]? = some child ∧
        child.follow? path = some m := by
  rw [follow?]
  cases (node.children step.slot)[step.place]? with
  | none => simp
  | some child => simp

/-- The walk comes to what the paths through its slots lead to. -/
theorem mem_visits (path : List Step) (m : Node) :
    (path, m) ∈ node.visits order slots ↔
      (∀ step ∈ path, step.slot ∈ slots) ∧ node.follow? path = some m := by
  induction path generalizing node with
  | nil =>
    rw [visits_eq, Order.mem_arrange, mem_visitsBelow]
    simp [follow?, eq_comm]
  | cons step path ih =>
    rw [visits_eq, Order.mem_arrange, mem_visitsBelow, List.forall_mem_cons, follow?_cons_eq_some]
    constructor
    · rintro (h | ⟨_, _, child, hpath, hslot, hchild, hvisit⟩)
      · cases h
      · obtain ⟨rfl, rfl⟩ := List.cons.inj hpath
        obtain ⟨hslots, hfollow⟩ := ih.1 hvisit
        exact ⟨⟨hslot, hslots⟩, child, hchild, hfollow⟩
    · rintro ⟨⟨hslot, hslots⟩, child, hchild, hfollow⟩
      exact .inr ⟨step, path, child, rfl, hslot, hchild, ih.2 ⟨hslots, hfollow⟩⟩

/-- Counted along a list, the places go up. -/
private theorem pairwise_zipIdx {α : Type} (xs : List α) :
    xs.zipIdx.Pairwise fun a b => a.2 < b.2 := by
  have h : (xs.zipIdx.map Prod.snd).Pairwise (· < ·) := by
    rw [List.zipIdx_map_snd]
    exact List.pairwise_lt_range'
  exact List.pairwise_map.1 h

/-- Below a node the walk goes in order, if it does so below each child. -/
private theorem pairwise_visitsBelow (hslots : slots.Nodup)
    (h : ∀ slot, ∀ child ∈ node.children slot,
      (child.visits order slots).Pairwise fun a b => Precedes slots order a.1 b.1) :
    (node.visitsBelow order slots).Pairwise fun a b => Precedes slots order a.1 b.1 := by
  -- Slots in turn, the children of one slot in turn, and below one child by assumption
  rw [visitsBelow, List.pairwise_flatMap]
  constructor
  · intro slot _
    rw [List.pairwise_flatMap]
    constructor
    · rintro ⟨child, place⟩ hchild
      rw [List.pairwise_map]
      exact (h slot child (List.fst_mem_of_mem_zipIdx hchild)).imp fun h => h.inside _
    · refine (pairwise_zipIdx _).imp fun hplace a ha b hb => ?_
      obtain ⟨a, -, rfl⟩ := List.mem_map.1 ha
      obtain ⟨b, -, rfl⟩ := List.mem_map.1 hb
      exact .beside (.inr ⟨Eq.refl slot, hplace⟩) _ _
  · refine (pairwise_idxOf hslots).imp fun hlt a ha b hb => ?_
    obtain ⟨_, -, ha⟩ := List.mem_flatMap.1 ha
    obtain ⟨_, -, hb⟩ := List.mem_flatMap.1 hb
    obtain ⟨a, -, rfl⟩ := List.mem_map.1 ha
    obtain ⟨b, -, rfl⟩ := List.mem_map.1 hb
    exact .beside (.inl hlt) _ _

/-- The walk comes to the nodes in its order. -/
theorem pairwise_visits (hslots : slots.Nodup) (node : Node) :
    (node.visits order slots).Pairwise fun a b => Precedes slots order a.1 b.1 := by
  induction node using Node.induction with
  | step node ih =>
    have hbelow := pairwise_visitsBelow hslots fun _ child hchild =>
      ih child (mem_parts_of_mem_children hchild)
    have hcons : ∀ visit ∈ node.visitsBelow order slots, ∃ step path, visit.1 = step :: path := by
      intro visit hvisit
      obtain ⟨step, path, _, hpath, -⟩ := mem_visitsBelow.1 hvisit
      exact ⟨step, path, hpath⟩
    rw [visits_eq]
    cases order with
    | pre =>
      -- The node itself is at the end of the empty path
      refine List.pairwise_cons.2 ⟨fun visit hvisit => ?_, hbelow⟩
      obtain ⟨step, path, hpath⟩ := hcons visit hvisit
      rw [hpath]
      exact .above step path
    | post =>
      refine List.pairwise_append.2 ⟨hbelow, List.pairwise_singleton _ _, ?_⟩
      intro visit hvisit self hself
      obtain ⟨step, path, hpath⟩ := hcons visit hvisit
      rw [List.mem_singleton.1 hself, hpath]
      exact .under step path

/-- The walk through the slots enumerates what it comes to. -/
theorem enumerates_visits (hslots : slots.Nodup) (node : Node) :
    Enumerates order slots node (node.visits order slots) where
  mem_iff := mem_visits
  nodup := List.pairwise_map.2 ((pairwise_visits hslots node).imp Precedes.ne)
  sorted := pairwise_visits hslots node

/-- The nodes that the walk comes to, without their paths. -/
def visited (order : Order) (slots : List Slot) (node : Node) : List Node :=
  (node.visits order slots).map Prod.snd

/-- The nodes that are met are the node itself and those met below its children. -/
theorem visited_eq (node : Node) :
    node.visited order slots =
      order.arrange node (slots.flatMap fun slot =>
        (node.children slot).flatMap (visited order slots)) := by
  have hchildren : ∀ nodes : List Node, nodes.flatMap (visited order slots) =
      nodes.zipIdx.flatMap fun x => x.1.visited order slots := by
    intro nodes
    rw [← List.flatMap_map (f := Prod.fst), List.zipIdx_map_fst]
  simp only [hchildren]
  rw [visited, visits_eq, Order.map_arrange, visitsBelow, List.map_flatMap]
  simp only [List.map_flatMap, List.map_map]
  rfl

/-! ## Selection -/

/-- What is selected is selected from the nodes that a walk comes to, in its order. -/
theorem select_eq_filter (p : Node → Bool) (node : Node) :
    node.select p = (node.visited .post Slot.searched).filter p := by
  induction node using Node.induction with
  | step node ih =>
    have hslot : ∀ slot, (node.children slot).flatMap (select p) =
        (node.children slot).flatMap fun child =>
          (child.visited .post Slot.searched).filter p := by
      intro slot
      rw [List.flatMap_def, List.flatMap_def]
      exact congrArg _ (List.map_congr_left fun child h => ih child (mem_parts_of_mem_children h))
    rw [select_eq, visited_eq, List.flatMap_assoc]
    simp only [Order.arrange, hslot, List.filter_append, List.filter_flatMap, List.filter_cons,
      List.filter_nil]

/-- Selection from a list of trees is selection from what is met in them. -/
theorem selectList_eq_filter (p : Node → Bool) (nodes : List Node) :
    selectList p nodes = (nodes.flatMap (visited .post Slot.searched)).filter p := by
  rw [selectList_eq_flatMap, List.filter_flatMap]
  exact congrArg (nodes.flatMap ·) (funext (select_eq_filter p))

/-! ## Replacement -/

/-- Replaces a node by itself, and records it behind what was seen before. -/
def record (node : Node) : StateM (List Node) Node := do
  modify (· ++ [node])
  return node

end Node

/-- A computation gives a result and records some nodes on the way. -/
def Records {α : Type} (x : StateM (List Node) α) (a : α) (nodes : List Node) : Prop :=
  ∀ seen, x.run seen = (a, seen ++ nodes)

namespace Records

variable {α β : Type} {a : α} {b : β} {nodes nodes' : List Node}

/-- What has no effect records nothing. -/
theorem pure (a : α) : Records (Pure.pure a) a [] := by
  intro seen
  rw [List.append_nil]
  rfl

/-- One computation after another records the nodes of both. -/
theorem bind {x : StateM (List Node) α} {f : α → StateM (List Node) β} (hx : Records x a nodes)
    (hf : Records (f a) b nodes') : Records (x >>= f) b (nodes ++ nodes') := by
  intro seen
  rw [StateT.run_bind, hx seen, ← List.append_assoc]
  exact hf (seen ++ nodes)

/-- What is built from the result is recorded no more than the result. -/
theorem build {x : StateM (List Node) α} (hx : Records x a nodes) (f : α → β) :
    Records (x >>= fun a => Pure.pure (f a)) (f a) nodes := by
  simpa using hx.bind (f := fun a => Pure.pure (f a)) (pure (f a))

/-- Recording a node records it and returns it. -/
theorem record (node : Node) : Records node.record node [node] :=
  fun _ => rfl

variable {f : α → StateM (List Node) α} {log : α → List Node}

/-- Replacing the parts in a place replaces each of them, from the first to the last. -/
private theorem mapM_list {xs : List α} (h : ∀ x ∈ xs, Records (f x) x (log x)) :
    Records (xs.mapM f) xs (xs.flatMap log) := by
  induction xs with
  | nil => exact pure []
  | cons x xs ih =>
    obtain ⟨hx, hxs⟩ := List.forall_mem_cons.1 h
    rw [List.mapM_cons, List.flatMap_cons]
    exact hx.bind ((ih hxs).build (x :: ·))

/-- Replacing the part that may be there replaces it if it is. -/
private theorem mapM_option {x : Option α} (h : ∀ a ∈ x.toList, Records (f a) a (log a)) :
    Records (x.mapM f) x (x.toList.flatMap log) := by
  cases x with
  | none => exact pure none
  | some a => simpa using (h a List.mem_cons_self).build some

/-- Replacing the only part of a place records what is recorded for it. -/
private theorem single {x : α} (h : ∀ a ∈ [x], Records (f a) a (log a)) :
    Records (f x) x ([x].flatMap log) := by
  simpa using h x List.mem_cons_self

/-- If each part in a slot is replaced by itself, so is the shape, and what is recorded is recorded
    for these parts in turn. -/
theorem updateM_shape {shape : Shape α} {slot : Slot}
    (h : ∀ part ∈ shape.inSlot slot, Records (f part) part (log part)) :
    Records (shape.updateM f slot) shape ((shape.inSlot slot).flatMap log) := by
  -- In most slots most shapes have nothing and stay as they are
  cases slot <;> cases shape <;> try exact pure _
  all_goals first
    | exact (single h).build _
    | exact (mapM_list h).build _
    | exact (mapM_option h).build _

/-- Replacing the children of a node in a slot by themselves gives the node back. -/
theorem updateM {f : Node → StateM (List Node) Node} {log : Node → List Node} {slot : Slot}
    {node : Node} (h : ∀ child ∈ node.children slot, Records (f child) child (log child)) :
    Records (node.updateM f slot) node ((node.children slot).flatMap log) := by
  obtain ⟨shape, position, lineBreaks, text, parenthesized, bracket, receiver⟩ := node
  unfold Node.updateM
  cases slot with
  | receiver =>
    exact (mapM_option h).build (Node.mk shape position lineBreaks text parenthesized bracket)
  | _ =>
    exact (updateM_shape h).build
      (Node.mk · position lineBreaks text parenthesized bracket receiver)

/-- Going through all slots replaces the nodes in one after those in the other. -/
theorem foldlM_updateM {f : Node → StateM (List Node) Node} {log : Node → List Node}
    {slots : List Slot} {node : Node}
    (h : ∀ slot ∈ slots, ∀ child ∈ node.children slot, Records (f child) child (log child)) :
    Records (slots.foldlM (fun node slot => node.updateM f slot) node) node
      (slots.flatMap fun slot => (node.children slot).flatMap log) := by
  induction slots with
  | nil => exact pure node
  | cons slot slots ih =>
    obtain ⟨hslot, hslots⟩ := List.forall_mem_cons.1 h
    rw [List.foldlM_cons, List.flatMap_cons]
    exact (updateM hslot).bind (ih hslots)

/-- A walk that goes down far enough records the nodes it comes to. -/
theorem transformM {levels : Nat} {node : Node} (h : node.height ≤ levels) :
    Records (node.transformM Node.record levels) node (node.visited .pre Slot.transformed) := by
  induction node using Node.induction generalizing levels with
  | step node ih =>
    obtain ⟨levels, rfl, hbelow⟩ := Node.exists_succ_of_height_le h
    rw [Node.visited_eq]
    exact (record node).bind (foldlM_updateM fun slot _ child hchild =>
      ih child (Node.mem_parts_of_mem_children hchild) (hbelow slot child hchild))

end Records

/-- The selected nodes of a tree are those that satisfy the predicate in the list of all nodes below
    it through the searched slots, which has every occurrence of a node once, after the nodes below
    it.  Selection goes through a list of trees one after the other, and selecting twice is
    selecting by both predicates.  The walk that replaces every node by itself comes to each
    occurrence through the transformed slots once, before the nodes below it, and so to every
    occurrence that is searched. -/
theorem select_enumerates (node : Node) :
    ∃ searched transformed,
      Enumerates .post Slot.searched node searched ∧
      (∀ p, node.select p = (searched.map Prod.snd).filter p) ∧
      (∀ p as bs, Node.selectList p (as ++ bs) = Node.selectList p as ++ Node.selectList p bs) ∧
      (∀ p q, node.select (fun m => p m && q m) = (node.select p).filter q) ∧
      (∀ p q nodes, Node.selectList (fun m => p m && q m) nodes =
        (Node.selectList p nodes).filter q) ∧
      Enumerates .pre Slot.transformed node transformed ∧
      (∀ levels, node.height ≤ levels → ∀ seen,
        (node.transformM Node.record levels).run seen =
          (node, seen ++ transformed.map Prod.snd)) ∧
      ∀ visit ∈ searched, visit ∈ transformed := by
  have hsearched : Enumerates .post Slot.searched node (node.visits .post Slot.searched) :=
    Node.enumerates_visits (by decide) node
  have htransformed : Enumerates .pre Slot.transformed node (node.visits .pre Slot.transformed) :=
    Node.enumerates_visits (by decide) node
  refine ⟨_, _, hsearched, fun p => Node.select_eq_filter p node, ?_, ?_, ?_, htransformed,
    fun levels h => Records.transformM h, ?_⟩
  · intro p as bs
    rw [Node.selectList_eq_flatMap, Node.selectList_eq_flatMap, Node.selectList_eq_flatMap,
      List.flatMap_append]
  · intro p q
    rw [Node.select_eq_filter, Node.select_eq_filter, List.filter_filter]
    simp only [Bool.and_comm]
  · intro p q nodes
    rw [Node.selectList_eq_filter, Node.selectList_eq_filter, List.filter_filter]
    simp only [Bool.and_comm]
  · rintro ⟨path, m⟩ hvisit
    obtain ⟨hslots, hfollow⟩ := (hsearched.mem_iff path m).1 hvisit
    have hsubset : ∀ slot ∈ Slot.searched, slot ∈ Slot.transformed := by decide
    exact (htransformed.mem_iff path m).2
      ⟨fun step hstep => hsubset step.slot (hslots step hstep), hfollow⟩

/-- A function with a parameter and a block, neither of which is searched. -/
theorem select_enumerates_function :
    let a : Node := .ofShape (.param "a" none false) .start
    let call : Node :=
      (Node.ofShape (.call [.ofShape (.name "a") .start]) .start).chainedFrom
        (.ofShape (.name "g") .start)
    let function : Node := .ofShape (.function "f" [a] [call]) .start
    function.height ≤ 3 ∧ function.select (fun _ => true) = [function] ∧
      ∃ transformed, Enumerates .pre Slot.transformed function transformed ∧
        (function.transformM Node.record 3).run [] = (function, transformed.map Prod.snd) := by
  intro a call function
  have hheight : function.height ≤ 3 := by decide
  obtain ⟨_, transformed, _, _, _, _, _, htransformed, hrun, _⟩ := select_enumerates function
  exact ⟨hheight, rfl, transformed, htransformed, hrun 3 hheight []⟩

end Schemata
