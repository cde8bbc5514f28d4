import ScriptTree.Text.Utf8

/-!
# Syntax trees

A script is read into a concrete syntax tree: every token and every construct is a node with a kind
and a range of bytes, and what lies between the children of a node (blanks) belongs to no child. A
node is *named* when it stands for a construct of the language and not for a fixed token.
-/

namespace ScriptTree

/-- The part that a child plays in its parent, where that is looked up. -/
inductive Role where
  | name
  | alias
  | source
  | value
  | body
  | parameters
  | pattern
  | object
  | property
  | function
  | arguments
  | attribute
  | openTag
  | closeTag
  deriving DecidableEq, Repr

/-- A **node** of a syntax tree: its kind, whether it stands for a construct, whether it was put in
for a missing token, its role in its parent, its range of bytes and its children. -/
structure Node where
  kind : String
  named : Bool := true
  missing : Bool := false
  role : Option Role := none
  start : Nat
  stop : Nat
  children : List Node := []
  deriving Repr

namespace Node

instance : Inhabited Node := ⟨⟨"", true, false, none, 0, 0, []⟩⟩

/-- The kind of the nodes that stand for comments. -/
def commentKind : String := "comment"

def isComment (n : Node) : Bool := n.kind == commentKind

/-- The **named children** of a node. -/
def namedChildren (n : Node) : List Node := n.children.filter (·.named)

/-- The named children of a node without the comments. -/
def parts (n : Node) : List Node := n.namedChildren.filter (!·.isComment)

/-- The first child with a role. -/
def child? (n : Node) (r : Role) : Option Node := n.children.find? (·.role == some r)

def childrenWith (n : Node) (r : Role) : List Node := n.children.filter (·.role == some r)

/-- The first named child of a kind. -/
def part? (n : Node) (kind : String) : Option Node := n.namedChildren.find? (·.kind == kind)

/-- Whether one of the **tokens** among the children is of one of some kinds. -/
def hasToken (n : Node) (kinds : List String) : Bool :=
  n.children.any fun c => !c.named && kinds.contains c.kind

/-- A node with a role put on it. -/
def inRole (n : Node) (r : Role) : Node := { n with role := some r }

mutual

/-- A node and all nodes below it, each before its children and in the order of the text. -/
def preorder : Node → List Node
  | ⟨kind, named, missing, role, start, stop, children⟩ =>
    ⟨kind, named, missing, role, start, stop, children⟩ :: preorderAll children

/-- Nodes and all nodes below them. -/
def preorderAll : List Node → List Node
  | [] => []
  | n :: ns => preorder n ++ preorderAll ns

end

end Node

/-- A **source tree**: a tree and the bytes that it was read from. -/
structure SourceTree where
  source : Bytes
  root : Node
  deriving Repr

namespace SourceTree

/-- The **statements** at the top of a script. -/
def statements (t : SourceTree) : List Node := t.root.parts

def slice (t : SourceTree) (start stop : Nat) : Except Utf8.Fault Text :=
  (Utf8.decode ((t.source.drop start).take (stop - start))).map Text.ofChars

def text (t : SourceTree) (n : Node) : Except Utf8.Fault Text := t.slice n.start n.stop

/-- The number of line feeds before a byte, and the number of bytes since the last of them. -/
def position (t : SourceTree) (offset : Nat) : Nat × Nat :=
  let before := t.source.take offset
  (before.count 10, (before.reverse.takeWhile (· != 10)).length)

end SourceTree

end ScriptTree
