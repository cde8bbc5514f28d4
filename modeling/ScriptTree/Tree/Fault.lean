import ScriptTree.Text.Blank
import ScriptTree.Text.Snippet
import ScriptTree.Tree.Node

/-!
# Faults in trees

Reading a script always gives a tree; what could not be read stands in it as an error node, and a
token that was put in is marked as missing. A script is well formed when its tree has no such node.
-/

namespace ScriptTree

namespace Node

/-- The kind of the nodes that stand for unreadable text. -/
def errorKind : String := "ERROR"

/-- Whether a node is a **fault**. -/
def isFault (n : Node) : Bool := n.kind == errorKind || n.missing

mutual

/-- Whether a node is a fault or holds one. -/
def hasFault : Node → Bool
  | ⟨kind, _, missing, _, _, _, children⟩ => kind == errorKind || missing || anyFault children

/-- Whether one of some nodes is a fault or holds one. -/
def anyFault : List Node → Bool
  | [] => false
  | n :: ns => hasFault n || anyFault ns

end

mutual

/-- The **first fault** at or below a node. -/
def firstFault? : Node → Option Node
  | ⟨kind, named, missing, role, start, stop, children⟩ =>
    if kind == errorKind || missing then
      some ⟨kind, named, missing, role, start, stop, children⟩
    else firstFaultIn? children

/-- The first fault among nodes and below them. -/
def firstFaultIn? : List Node → Option Node
  | [] => none
  | n :: ns => (firstFault? n).or (firstFaultIn? ns)

end

end Node

/-- How a message **describes** a fault: the missing token, or the first line of up to forty bytes
of unreadable text. -/
def SourceTree.describeFault (t : SourceTree) (n : Node) : Except Utf8.Fault Text :=
  if n.missing then .ok (("expected '" : Text) ++ (n.kind : Text) ++ ("'" : Text))
  else do
    let snippet ← t.slice n.start (min n.stop (n.start + 40))
    let shown := if snippet.isAllSpace then snippet else snippet.firstLine
    return ("unexpected syntax near " : Text) ++ Snippet.quote shown

end ScriptTree
