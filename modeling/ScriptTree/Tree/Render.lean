import ScriptTree.Tree.Edit

/-!
# Rendering edited trees

`SourceTree.emit` writes the text of a tree with edits applied. Text outside the edits comes out as
it stands. A replaced node is written as its replacement, whatever edits lie inside it; an insertion
stands before its byte, and one at the start of a replaced node stays before the replacement.
-/

namespace ScriptTree

/-- Why edited text cannot be written: a piece is not well-formed UTF-8, or a statement is
missing. -/
inductive RenderFault where
  | undecodable (fault : Utf8.Fault)
  | missingStatement (missing : MissingStatement)
  deriving DecidableEq, Repr

/-- A tree with its edits made ready for **rendering**: all insertions, and the offsets at which
text is cut, in ascending order. -/
structure Rendering where
  tree : SourceTree
  edits : EditSet
  insertions : List (Int × Text)
  cuts : List Nat

namespace Rendering

/-- The offsets at which replaced nodes start or text is put in, each once and in ascending
order. -/
def cutsOf (edits : EditSet) (insertions : List (Int × Text)) : List Nat :=
  let starts := edits.replacements.map (·.1.start)
  let offsets := (insertions.filter (0 ≤ ·.1)).map (·.1.toNat)
  ((starts ++ offsets).eraseDups).mergeSort

/-- The rendering of a tree with edits. -/
def of (tree : SourceTree) (edits : EditSet) : Except RenderFault Rendering :=
  match edits.resolve tree.statements with
  | .ok insertions => .ok ⟨tree, edits, insertions, cutsOf edits insertions⟩
  | .error missing => .error (.missingStatement missing)

/-- Whether a cut falls into a closed range. -/
def touches (r : Rendering) (start stop : Nat) : Bool :=
  r.cuts.any fun c => start ≤ c && c ≤ stop

/-- The texts put in before a byte. -/
def inserted (r : Rendering) (offset : Nat) : Text :=
  (r.insertions.filter (·.1 == (offset : Int))).flatMap (·.2)

/-- The text of a range of bytes as it stands. -/
def raw (r : Rendering) (start stop : Nat) : Except RenderFault Text :=
  match r.tree.slice start stop with
  | .ok t => .ok t
  | .error fault => .error (.undecodable fault)

/-- The text from `start` to `stop`, cut at offsets in between with what is put in there. -/
def pieces (r : Rendering) (start stop : Nat) : List Nat → Except RenderFault Text
  | [] => r.raw start stop
  | c :: cs => do
    let before ← r.raw start c
    let after ← r.pieces c stop cs
    return before ++ r.inserted c ++ after

/-- A **range of bytes** with the insertions in it. -/
def slice (r : Rendering) (start stop : Nat) : Except RenderFault Text :=
  if stop ≤ start then .ok []
  else r.pieces start stop (r.cuts.filter fun c => start ≤ c && c < stop)

mutual

/-- A **node** with the edits in it. -/
def render (r : Rendering) : Node → Except RenderFault Text
  | ⟨kind, named, missing, role, start, stop, children⟩ =>
    match r.edits.replacement? ⟨kind, named, missing, role, start, stop, children⟩ with
    | some text => .ok (r.inserted start ++ text)
    | none =>
      if children.isEmpty || !r.touches start stop then r.slice start stop
      else r.renderFrom start stop children

/-- The text from a cursor to `stop`, of which some nodes are rendered on the way. -/
def renderFrom (r : Rendering) (cursor stop : Nat) : List Node → Except RenderFault Text
  | [] => r.slice cursor stop
  | n :: ns => do
    let before ← r.slice cursor n.start
    let node ← r.render n
    let after ← r.renderFrom n.stop stop ns
    return before ++ node ++ after

end

def whole (r : Rendering) : Except RenderFault Text := do
  let length := r.tree.source.length
  let before ← r.slice 0 r.tree.root.start
  let root ← r.render r.tree.root
  let after ← r.slice r.tree.root.stop length
  return before ++ root ++ after ++ r.inserted length

end Rendering

namespace SourceTree

/-- The **text of a tree** with edits applied. -/
def emit (tree : SourceTree) (edits : EditSet) : Except RenderFault Text :=
  if edits.isEmpty then
    match tree.slice 0 tree.source.length with
    | .ok t => .ok t
    | .error fault => .error (.undecodable fault)
  else (Rendering.of tree edits).bind Rendering.whole

/-- The text of one node with edits applied. -/
def renderNode (tree : SourceTree) (edits : EditSet) (n : Node) : Except RenderFault Text :=
  (Rendering.of tree edits).bind (·.render n)

end SourceTree

end ScriptTree
