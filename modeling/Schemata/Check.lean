import Schemata.Collection
import Schemata.Json.Basic

/-!
# Checks against a collection

A call is checked against the parameters of a function (`checkArity`, `checkCall`) and a record
against the fields of a collection (`checkRecord`).
-/

namespace Schemata

/-- Why a call or a record does not fit its collection. -/
inductive CheckError where
  | argumentCount (expected got : Nat)
  | unknownFunction (collection function : String)
  /-- The node of this kind is no collection. -/
  | notCollection (label : String)
  /-- The node of this kind is no function. -/
  | notFunction (label : String)
  /-- The record has this type. -/
  | notObject (type : String)
  | missingField (name : String)
  | fieldType (field expected got : String)
  deriving DecidableEq, Repr

/-- The text of the error. -/
def CheckError.message : CheckError → String
  | argumentCount expected got =>
    "incorrect number of arguments, expected " ++ Nat.repr expected ++ ", got " ++ Nat.repr got
  | unknownFunction collection function =>
    "function " ++ function ++ " not found in collection " ++ collection
  | notCollection label => label ++ " is not a collection"
  | notFunction label => label ++ " is not a function"
  | notObject type => "record must be an object, got " ++ type
  | missingField name => "missing required field: " ++ name
  | fieldType field expected got =>
    "field " ++ field ++ " must be " ++ expected ++ ", got " ++ got

/-- Whether the node is a parameter that may be left out. -/
def Node.isOptionalParam (node : Node) : Bool :=
  match node.shape with
  | .param _ _ optional => optional
  | _ => false

/-- Checks the number of arguments of a call.  There have to be as many as there are required
    parameters, and no more than there are parameters. -/
def checkArity (function : Node) (args : Nat) : Except CheckError Unit :=
  match function.shape with
  | .function _ params _ =>
    let required := params.countP (!·.isOptionalParam)
    if args < required then .error (.argumentCount required args)
    else if args > params.length then .error (.argumentCount params.length args)
    else .ok ()
  | _ => .error (.notFunction function.label)

/-- Checks a call of a function that a collection declares. -/
def checkCall (collection : Node) (function : String) (args : Nat) : Except CheckError Unit :=
  match collection.collectionName? with
  | none => .error (.notCollection collection.label)
  | some name =>
    match collection.function? function with
    | none => .error (.unknownFunction name function)
    | some declared => checkArity declared args

/-- The type of the items, for a type that ends in brackets. -/
def itemType? (type : String) : Option String :=
  if ['[', ']'].isSuffixOf type.toList then some (String.ofList type.toList.dropLast.dropLast)
  else none

/-- Whether a value is of a type that is no list.  A type that is not built in accepts all. -/
def fitsScalar (type : String) (value : Json) : Bool :=
  if type = "string" then value.typeName = "string"
  else if type = "number" then value.typeName = "number"
  else if type = "boolean" then value.typeName = "boolean"
  else true

/-- Checks the value of a field.  For a list the error names the type of the first item that does
    not fit. -/
def checkValue (field type : String) (value : Json) : Except CheckError Unit :=
  match itemType? type with
  | none =>
    if fitsScalar type value then .ok () else .error (.fieldType field type value.typeName)
  | some item =>
    match value with
    | .array items =>
      match items.find? (!fitsScalar item ·) with
      | none => .ok ()
      | some misfit => .error (.fieldType field type misfit.typeName)
    | _ => .error (.fieldType field type value.typeName)

/-- Checks the members of a record against a field.  A member that is null counts as missing. -/
def checkField (members : List (String × Json)) (field : Node) : Except CheckError Unit :=
  match field.shape with
  | .field name type required =>
    match members.lookup name with
    | none | some .null => if required then .error (.missingField name) else .ok ()
    | some value => checkValue name type value
  | _ => .ok ()

/-- Checks a record against the fields of a collection, in the order of their declaration. -/
def checkRecord (collection : Node) (record : Json) : Except CheckError Unit :=
  match collection.collectionName? with
  | none => .error (.notCollection collection.label)
  | some _ =>
    match record with
    | .object members => collection.fields.forM (checkField members)
    | _ => .error (.notObject record.typeName)

end Schemata
