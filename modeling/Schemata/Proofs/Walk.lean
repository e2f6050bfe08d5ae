import Mathlib.Data.List.Basic
import Schemata.Node.Slot
import Schemata.Proofs.Tree

/-!
# Walks

`Node.transform` is the walk of `Node.transformM` with a function that has no effects.  It comes to
the receiver of a node and to the parts of its shape, but to no key of an object and no further
clause of a conditional (`Shape.mapReached`), so it is described level by level by `transform_succ`.
-/

namespace Schemata

/-! ## What a walk comes to -/

namespace Shape

variable {μ ν : Type}

/-- The shape with the parts that a walk comes to replaced by their images, and the others, which
    are the keys of objects and the further clauses of a conditional, by other images. -/
def mapReached (f g : μ → ν) : Shape μ → Shape ν
  | entry key value => entry (g key) (f value)
  | ifStmt condition body clauses => ifStmt (f condition) (body.map f) (clauses.map g)
  | shape => shape.map f

/-- Taking images of the parts first takes them of what is reached and of what is not. -/
theorem mapReached_map {ξ : Type} (h : ξ → μ) (f g : μ → ν) (shape : Shape ξ) :
    (shape.map h).mapReached f g = shape.mapReached (fun x => f (h x)) fun x => g (h x) := by
  cases shape <;> simp [map, mapReached, Function.comp_def]

/-- Only what the function does to the parts counts. -/
theorem mapReached_congr {f f' g : μ → ν} {shape : Shape μ}
    (h : ∀ part ∈ shape.parts, f part = f' part) :
    shape.mapReached f g = shape.mapReached f' g := by
  cases shape with
  | entry key value =>
    simp only [mapReached]
    rw [h value (.tail _ List.mem_cons_self)]
  | ifStmt condition body clauses =>
    have hbody : body.map f = body.map f' :=
      List.map_congr_left fun part hpart => h part (.tail _ (List.mem_append_left _ hpart))
    simp only [mapReached]
    rw [h condition List.mem_cons_self, hbody]
  | _ => exact map_congr h

/-- Every part afterwards is the image of a part or a part itself. -/
theorem mem_parts_mapReached {f : μ → μ} {shape : Shape μ} {part : μ}
    (h : part ∈ (shape.mapReached f id).parts) :
    part ∈ shape.parts ∨ ∃ old ∈ shape.parts, part = f old := by
  cases shape with
  | entry key value =>
    rcases List.mem_pair.1 h with rfl | rfl
    · exact .inl List.mem_cons_self
    · exact .inr ⟨value, .tail _ List.mem_cons_self, rfl⟩
  | ifStmt condition body clauses =>
    rcases List.mem_cons.1 h with rfl | h
    · exact .inr ⟨condition, List.mem_cons_self, rfl⟩
    rcases List.mem_append.1 h with h | h
    · obtain ⟨old, hold, rfl⟩ := List.mem_map.1 h
      exact .inr ⟨old, .tail _ (List.mem_append_left _ hold), rfl⟩
    · rw [List.map_id] at h
      exact .inl (.tail _ (List.mem_append_right _ h))
  | _ =>
    simp only [mapReached, parts_map] at h
    obtain ⟨old, hold, heq⟩ := List.mem_map.1 h
    exact .inr ⟨old, hold, heq.symm⟩

end Shape

namespace Node

/-- The node with the images of the nodes below it that a walk comes to. -/
def mapChildren (f : Node → Node) (node : Node) : Node :=
  { node with shape := node.shape.mapReached f id, receiver := node.receiver.map f }

/-- Going through all slots comes to the receiver and to the parts of the shape, except for the keys
    of objects and the further clauses of a conditional. -/
private theorem run_foldlM_updateM (f : Node → Node) (node : Node) :
    Id.run (Slot.transformed.foldlM (fun node slot => node.updateM (fun n => pure (f n)) slot)
        node) = node.mapChildren f := by
  obtain ⟨shape, position, lineBreaks, text, parenthesized, bracket, receiver⟩ := node
  have hlist : ∀ nodes : List Node, nodes.map f = nodes.mapM (m := Id) fun n => pure (f n) :=
    fun _ => (List.mapM_pure (m := Id)).symm
  have hreceiver : receiver.map f = receiver.mapM (m := Id) fun n => pure (f n) := by
    cases receiver <;> rfl
  -- A walk through a list is not unfolded, so what it comes to is put in its place first
  simp only [mapChildren, Shape.mapReached, hreceiver]
  cases shape with
  | returnStmt value | letDecl _ value => cases value <;> rfl
  | _ =>
    simp only [Shape.map, List.map_id, hlist]
    rfl

/-! ## Walks -/

/-- Replaces a node by its image, then the nodes below the image in the same way, down to the given
    number of levels. -/
def transform (f : Node → Node) (levels : Nat) (node : Node) : Node :=
  Id.run (transformM (fun n => pure (f n)) levels node)

/-- A walk of one level more replaces the node, and goes on from the nodes below its image. -/
theorem transform_succ {f : Node → Node} (levels : Nat) (node : Node) :
    node.transform f (levels + 1) = (f node).mapChildren (transform f levels) :=
  run_foldlM_updateM (transform f levels) (f node)

end Node

/-! ## Replacing names -/

/-- The shape with its name replaced, if it is that of a name. -/
def Shape.rename {ν : Type} (r : String → String) : Shape ν → Shape ν
  | name word => name (r word)
  | shape => shape

/-- A name has no parts to rename. -/
@[simp] theorem Shape.parts_rename {ν : Type} (r : String → String) (shape : Shape ν) :
    (shape.rename r).parts = shape.parts := by
  cases shape <;> rfl

/-- A name is replaced before the parts are or after, which is the same. -/
theorem Shape.mapReached_rename {μ ν : Type} (f g : μ → ν) (r : String → String)
    (shape : Shape μ) : (shape.rename r).mapReached f g = (shape.mapReached f g).rename r := by
  cases shape <;> rfl

/-- A name with another word, and every other node as it is. -/
def Node.rename (r : String → String) (node : Node) : Node :=
  { node with shape := node.shape.rename r }

end Schemata
