import ScriptTree.Module.Literal
import ScriptTree.Module.Specifier
import ScriptTree.Tree.Walk

/-!
# Dependencies

The modules that a script depends on, in the order in which it names them: imports, exports from
other modules, and calls that load a module by a specifier that is written out.
-/

namespace ScriptTree

/-- A **dependency**: the specifier as written and the mechanism. -/
structure Edge where
  specifier : Text
  mechanism : Mechanism
  deriving DecidableEq, Repr

namespace Edge

/-- Whether an edge leads to a file of the project. -/
def isInternal (e : Edge) : Bool := ScriptTree.isInternal e.specifier

/-- Whether an edge leads to a module of the host. -/
def isBuiltin (e : Edge) : Bool := ScriptTree.isBuiltin e.specifier

end Edge

/-- The specifier of an import statement: where its names come from, or the module it stands for. -/
def importSource (statement : Node) : Option Node :=
  match statement.child? .source with
  | some source => some source
  | none => (statement.part? "import_require_clause").bind (·.child? .source)

/-- The specifier at a node on the way through a tree, with its mechanism, and how the walk goes
on. -/
def edgeAt (tree : SourceTree) (node : Node) :
    Except Failure (Option (SpecifierNode × Mechanism) × Visit) :=
  match node.kind with
  | "import_statement" =>
    if node.hasToken ["type", "typeof"] then .ok (none, .skip)
    else do return ((← readSpecifier tree (importSource node)).map (·, .imported), .skip)
  | "export_statement" =>
    if node.hasToken ["type"] then .ok (none, .skip)
    else do return ((← readSpecifier tree (node.child? .source)).map (·, .imported), .continue)
  | "call_expression" => do return (← callTarget tree node, .continue)
  | _ => .ok (none, .continue)

/-- Adds the edge at a node to those found so far; an empty specifier names nothing. -/
def addEdge (tree : SourceTree) (node : Node) : StateT (List Edge) (Except Failure) Visit := do
  let (found, next) ← edgeAt tree node
  match found with
  | some (spec, mechanism) =>
    if !spec.value.isEmpty then modify (· ++ [⟨spec.value, mechanism⟩])
    return next
  | none => return next

/-- All **edges** of a tree, those to modules of the host included. -/
def allDependencies (tree : SourceTree) : Except Failure (List Edge) := do
  let (_, edges) ← (tree.walk fun _ node => addEdge tree node).run []
  return edges

/-- The edges of a tree, with or without those to modules of the host. -/
def dependencies (tree : SourceTree) (includeBuiltins : Bool) : Except Failure (List Edge) := do
  let edges ← allDependencies tree
  return if includeBuiltins then edges else edges.filter (!·.isBuiltin)

/-- Kinds of nodes that only static modules have. -/
def moduleKinds : List String :=
  ["import_statement", "export_statement", "import_clause", "import_specifier", "namespace_import",
    "named_imports", "export_specifier", "export_clause", "namespace_export", "import_attribute"]

/-- Whether a tree holds something that only static modules have. -/
def hasModuleSyntax (tree : SourceTree) : Bool :=
  !(Id.run (tree.walk fun _ node =>
    pure (if moduleKinds.contains node.kind then Visit.stop else .continue)))

end ScriptTree
