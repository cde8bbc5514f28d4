import ScriptTree.Tree.Node

/-!
# Edits

Editing a script never changes its tree. It collects **edits**: texts that replace nodes, texts
put in before a byte, and texts put in after a statement. A node is known by its range and kind, and
a later replacement of the same node takes the place of an earlier one.
-/

namespace ScriptTree

/-- What a node is known by in its tree: its range and its kind. -/
structure NodeKey where
  start : Nat
  stop : Nat
  kind : String
  deriving DecidableEq, Repr

def Node.key (n : Node) : NodeKey := ⟨n.start, n.stop, n.kind⟩

/-- A set of **edits**. Offsets and indices are integers: an offset outside the text has no effect,
and a negative index counts the statements from the end. -/
structure EditSet where
  replacements : List (NodeKey × Text) := []
  insertions : List (Int × Text) := []
  statementInsertions : List (Int × Text) := []
  deriving Repr

/-- The statement after which text was to be put does not exist. -/
structure MissingStatement where
  index : Int
  deriving DecidableEq, Repr

namespace EditSet

def isEmpty (e : EditSet) : Bool :=
  e.replacements.isEmpty && e.insertions.isEmpty && e.statementInsertions.isEmpty

/-- The edits with a text in place of the node that has a key. -/
def replaceKey (e : EditSet) (key : NodeKey) (text : Text) : EditSet :=
  { e with replacements := (key, text) :: e.replacements.filter (·.1 != key) }

/-- The edits with a text in place of a node. -/
def replace (e : EditSet) (n : Node) (text : Text) : EditSet := e.replaceKey n.key text

/-- The edits with a node taken out. -/
def remove (e : EditSet) (n : Node) : EditSet := e.replace n []

/-- The edits with a text put in before a byte. -/
def insertAt (e : EditSet) (offset : Int) (text : Text) : EditSet :=
  { e with insertions := e.insertions ++ [(offset, text)] }

/-- The edits with a text put in after a statement. -/
def insertAfter (e : EditSet) (index : Int) (text : Text) : EditSet :=
  { e with statementInsertions := e.statementInsertions ++ [(index, text)] }

/-- The text in place of a node, if it is replaced. -/
def replacement? (e : EditSet) (n : Node) : Option Text := e.replacements.lookup n.key

/-- The statement that an index names; a negative one counts from the end. -/
def statement? (statements : List Node) (index : Int) : Option Node :=
  if 0 ≤ index then statements[index.toNat]?
  else if (-index).toNat ≤ statements.length then statements[statements.length - (-index).toNat]?
  else none

/-- Insertions ordered by statement, those after one statement in the order in which they came. -/
def byStatement (insertions : List (Int × Text)) : List (Int × Text) :=
  insertions.mergeSort fun a b => a.1 ≤ b.1

/-- All **insertions before bytes**: those given so, then those after statements, placed where the
statements end. -/
def resolve (e : EditSet) (statements : List Node) :
    Except MissingStatement (List (Int × Text)) := do
  let after ← (byStatement e.statementInsertions).mapM fun (index, text) =>
    match statement? statements index with
    | some s => Except.ok ((s.stop : Int), text)
    | none => Except.error ⟨index⟩
  return e.insertions ++ after

end EditSet

end ScriptTree
