import ScriptTree.Tree.Node

/-!
# Walking trees

A **walk** goes through the statements of a tree in order, each node before its children, and calls
a visitor with the number of the statement. The visitor may leave out what lies below a node or end
the walk.
-/

namespace ScriptTree

/-- How a walk goes on after a visit. -/
inductive Visit where
  | continue
  | skip
  | stop
  deriving DecidableEq, Repr

mutual

/-- Walks a **node** and what lies below it. -/
def Node.walk {m : Type → Type} [Monad m] (visit : Node → m Visit) : Node → m Bool
  | ⟨kind, named, missing, role, start, stop, children⟩ => do
    match ← visit ⟨kind, named, missing, role, start, stop, children⟩ with
    | .continue => Node.walkAll visit children
    | .skip => return true
    | .stop => return false

/-- Walks nodes one after the other. -/
def Node.walkAll {m : Type → Type} [Monad m] (visit : Node → m Visit) : List Node → m Bool
  | [] => pure true
  | n :: ns => do
    if ← Node.walk visit n then Node.walkAll visit ns else return false

end

/-- Walks statements one after the other, counting from `index`. -/
def walkStatements {m : Type → Type} [Monad m] (visit : Nat → Node → m Visit) (index : Nat) :
    List Node → m Bool
  | [] => pure true
  | s :: rest => do
    if ← s.walk (visit index) then walkStatements visit (index + 1) rest else return false

/-- Walks a **tree**, statement by statement. -/
def SourceTree.walk {m : Type → Type} [Monad m] (tree : SourceTree)
    (visit : Nat → Node → m Visit) : m Bool :=
  walkStatements visit 0 tree.statements

end ScriptTree
