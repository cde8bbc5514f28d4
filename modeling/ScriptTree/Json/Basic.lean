import ScriptTree.Number.Numeral

/-!
# JSON values

Configuration files and package manifests are JSON. The fields of an object are kept in the order in
which they are first written, because package exports are matched in that order.
-/

namespace ScriptTree

/-- A JSON **value**. -/
inductive Json where
  | null
  | bool (b : Bool)
  | number (n : Number)
  | string (t : Text)
  | array (items : List Json)
  | object (fields : List (Text × Json))
  deriving Repr

namespace Json

/-- Fields with one more: a name that is already there keeps its place. -/
def insertField (name : Text) (value : Json) : List (Text × Json) → List (Text × Json)
  | [] => [(name, value)]
  | (n, v) :: rest =>
    if n = name then (n, value) :: rest else (n, v) :: insertField name value rest

/-- The fields of an object; any other value has none. -/
def fields : Json → List (Text × Json)
  | .object fs => fs
  | _ => []

def field? (name : Text) (j : Json) : Option Json := j.fields.lookup name

def isObject : Json → Bool
  | .object _ => true
  | _ => false

def text? : Json → Option Text
  | .string t => some t
  | _ => none

/-- The items of an array; any other value has none. -/
def items : Json → List Json
  | .array xs => xs
  | _ => []

end Json

end ScriptTree
