import Schemata.Numeral.Binary64

/-!
# JSON values

The members of an object are kept in ascending order of their keys, each key once:
`Json.ofMembers` builds an object from members in any order, of which the last with a key counts.
-/

namespace Schemata

/-- A number of a JSON value: a whole number, or a binary one. -/
inductive Json.Number where
  | integer (n : Int)
  | double (value : Numeral.Binary64)
  deriving DecidableEq, Repr

/-- A JSON value. -/
inductive Json where
  | null
  | bool (value : Bool)
  | number (value : Json.Number)
  | string (value : String)
  | array (items : List Json)
  | object (members : List (String × Json))
  deriving Repr

namespace Json

instance : Inhabited Json := ⟨null⟩

/-- The name of a value's type. -/
def typeName : Json → String
  | null => "null"
  | bool _ => "boolean"
  | number _ => "number"
  | string _ => "string"
  | array _ => "array"
  | object _ => "object"

/-- A natural number as a value. -/
def ofNat (n : Nat) : Json :=
  number (.integer n)

/-- Puts a member in its place among ordered ones, instead of one with its key. -/
def insertMember (key : String) (value : Json) : List (String × Json) → List (String × Json)
  | [] => [(key, value)]
  | (k, v) :: rest =>
    if key < k then (key, value) :: (k, v) :: rest
    else if key = k then (key, value) :: rest
    else (k, v) :: insertMember key value rest

/-- The object with the given members. -/
def ofMembers (members : List (String × Json)) : Json :=
  object (members.foldl (fun ordered (key, value) => insertMember key value ordered) [])

/-- The value of a member of an object. -/
def get? (key : String) : Json → Option Json
  | object members => members.lookup key
  | _ => none

end Json

end Schemata
