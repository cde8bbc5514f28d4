import ScriptTree.Text.JsonString
import ScriptTree.Transform.Kinds

/-!
# Enums

An enum is compiled to a variable and a function that fills it in. Each member is assigned its value
and, unless the value is a string, the value is assigned the name of the member as well. A member
without a value gets the number after that of the member before it; where that number is not known,
the value is computed when the script runs.
-/

namespace ScriptTree.Transform

/-- What is known after some members of an enum: the assignments so far, the number of the last
member if it is known, and how the last member is written. -/
structure EnumState where
  assignments : List Text := []
  number : Option Number := some (.integer (-1))
  previous : Text := "None"

/-- The name of a member as a value. -/
def memberKey (tree : SourceTree) (key : Node) : Except Failure Text := do
  let text ← tree.nodeText key
  if key.kind == "string" then cooked ((text.drop 1).dropLast) else return text

def memberAccess (name quoted : Text) : Text := name ++ ("[" : Text) ++ quoted ++ ("]" : Text)

/-- The assignment of a value to a member, and of the member's name to the value if `reverse`. -/
def memberAssignment (name quoted value : Text) (reverse : Bool) : Text :=
  if reverse then
    name ++ ("[" : Text) ++ memberAccess name quoted ++ (" = " : Text) ++ value ++ ("] = " : Text)
      ++ quoted ++ (";" : Text)
  else memberAccess name quoted ++ (" = " : Text) ++ value ++ (";" : Text)

def numberText (n : Number) : Except Failure Text :=
  match n.text with
  | .ok t => .ok t
  | .error fault => .error (.defect (.numeral fault))

/-- The value of a member: its text, its number if that is known, and whether it is assigned the
name of the member. -/
def memberValue (tree : SourceTree) (edits : EditSet) (state : EnumState) (value : Option Node) :
    Except Failure (Text × Option Number × Bool) :=
  match value with
  | none =>
    match state.number with
    | some n => do return (← numberText n.succ, some n.succ, true)
    | none => return (state.previous ++ (" + 1" : Text), none, true)
  | some node => do
    let text ← tree.rendered edits node
    if node.kind == "string" || node.kind == "template_string" then return (text, none, false)
    else return (text, if node.kind == "number" then Number.read? text else none, true)

/-- One more **member** of an enum. -/
def enumMember (tree : SourceTree) (edits : EditSet) (name : Text) (state : EnumState)
    (member : Node) : Except Failure EnumState := do
  let (key, value) :=
    if member.kind == "enum_assignment" then
      ((member.child? .name).getD member, member.child? .value)
    else (member, none)
  let quoted := JsonString.quote true (← memberKey tree key)
  let (text, number, reverse) ← memberValue tree edits state value
  return ⟨state.assignments ++ [memberAssignment name quoted text reverse], number,
    memberAccess name quoted⟩

/-- An enum **compiled**. -/
def compileEnum (tree : SourceTree) (edits : EditSet) (node : Node) : Except Failure Text := do
  let name ← tree.nodeText ((node.child? .name).getD node)
  let members := ((node.child? .body).map (·.parts)).getD []
  let state ← members.foldlM (enumMember tree edits name) {}
  let body := Text.join " " state.assignments
  return ("var " : Text) ++ name ++ ("; (function (" : Text) ++ name ++ (") \x7b " : Text) ++ body
    ++ (" \x7d)(" : Text) ++ name ++ (" || (" : Text) ++ name ++ (" = \x7b\x7d));" : Text)

end ScriptTree.Transform
