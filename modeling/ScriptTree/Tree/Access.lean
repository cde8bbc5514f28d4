import ScriptTree.Failure

/-!
# Texts of nodes

The texts of nodes and ranges, plain, with escapes resolved or with edits applied, as steps of
computations that may fail.
-/

namespace ScriptTree.SourceTree

/-- The text of a range of bytes. -/
def rangeText (tree : SourceTree) (start stop : Nat) : Except Failure Text :=
  match tree.slice start stop with
  | .ok t => .ok t
  | .error fault => .error (.defect (.undecodable fault))

def nodeText (tree : SourceTree) (n : Node) : Except Failure Text := tree.rangeText n.start n.stop

/-- The text of a node with edits applied. -/
def rendered (tree : SourceTree) (edits : EditSet) (n : Node) : Except Failure Text :=
  match tree.renderNode edits n with
  | .ok t => .ok t
  | .error fault => .error (.ofRenderFault fault)

/-- The text of a tree with edits applied. -/
def emitted (tree : SourceTree) (edits : EditSet) : Except Failure Text :=
  match tree.emit edits with
  | .ok t => .ok t
  | .error fault => .error (.ofRenderFault fault)

end ScriptTree.SourceTree

namespace ScriptTree

/-- The value of the body of a literal. -/
def cooked (body : Text) : Except Failure Text :=
  match unescape body with
  | .ok t => .ok t
  | .error fault => .error (.defect (.escape fault))

end ScriptTree
