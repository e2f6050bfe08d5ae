import Schemata.Node.Basic

/-!
# Collections

What a collection declares: its fields, indexes and functions, each in source order.
-/

namespace Schemata.Node

/-- The name of a collection. -/
def collectionName? (node : Node) : Option String :=
  match node.shape with
  | .collection name _ => some name
  | _ => none

/-- The items of a collection; no other node has any. -/
def items (node : Node) : List Node :=
  match node.shape with
  | .collection _ items => items
  | _ => []

/-- Whether the node declares a field. -/
def isField (node : Node) : Bool :=
  match node.shape with
  | .field _ _ _ => true
  | _ => false

/-- Whether the node declares an index. -/
def isIndex (node : Node) : Bool :=
  match node.shape with
  | .index _ => true
  | _ => false

/-- The name of a function. -/
def functionName? (node : Node) : Option String :=
  match node.shape with
  | .function name _ _ => some name
  | _ => none

/-- The fields of an index. -/
def indexFields (node : Node) : List IndexField :=
  match node.shape with
  | .index fields => fields
  | _ => []

/-- The fields of a collection. -/
def fields (node : Node) : List Node :=
  node.items.filter isField

/-- The indexes of a collection. -/
def indexes (node : Node) : List Node :=
  node.items.filter isIndex

/-- The functions of a collection. -/
def functions (node : Node) : List Node :=
  node.items.filter (·.functionName?.isSome)

/-- The first function of a collection with the given name. -/
def function? (node : Node) (name : String) : Option Node :=
  node.functions.find? (·.functionName? == some name)

/-- The first collection with the given name among statements. -/
def findCollection? (nodes : List Node) (name : String) : Option Node :=
  nodes.find? (·.collectionName? == some name)

end Schemata.Node
