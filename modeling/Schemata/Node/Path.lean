import Schemata.Node.Slot

/-!
# Paths into a tree

A step of a path names a slot and counts the nodes in it.
-/

namespace Schemata

/-- A step from a node to one below it: a slot, and a place in it counted from 0. -/
structure Step where
  slot : Slot
  place : Nat
  deriving DecidableEq, Repr

namespace Node

/-- The node that a path leads to. -/
def follow? (node : Node) : List Step → Option Node
  | [] => some node
  | step :: path =>
    match (node.children step.slot)[step.place]? with
    | some child => child.follow? path
    | none => none

/-- The node that a path leads to from one of the given nodes. -/
def locate? (nodes : List Node) (index : Nat) (path : List Step) : Option Node :=
  match nodes[index]? with
  | some node => node.follow? path
  | none => none

end Node

end Schemata
