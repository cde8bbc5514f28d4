import ScriptTree.Link.Interop
import ScriptTree.Plan.Basic

/-!
# Linking

A file is **linked** when each of its internal specifiers points at a file that is written: imports
at static files, `require` at dynamic ones. Imports of names from dynamic packages are made to work
on the way.
-/

namespace ScriptTree

/-- The **specifier** at a node with its mechanism, and how the walk goes on. -/
def linkSite (tree : SourceTree) (node : Node) :
    Except Failure (Option (SpecifierNode × Mechanism) × Visit) :=
  match node.kind with
  | "import_statement" =>
    if node.hasToken ["type", "typeof"] then .ok (none, .skip)
    else do return ((← readSpecifier tree (node.child? .source)).map (·, .imported), .skip)
  | "export_statement" => do
    return ((← readSpecifier tree (node.child? .source)).map (·, .imported), .continue)
  | "call_expression" => do return (← callTarget tree node, .continue)
  | _ => .ok (none, .continue)

/-- The edits so far and the imports of names from packages. -/
structure LinkWork where
  edits : EditSet := {}
  imports : List NamedImport := []

/-- The specifier that an internal one is changed to: the one given for it, or the same with the
extension of the format. -/
def newSpecifier (targets : SpecifierTargets) (value : Text) (mechanism : Mechanism) : Text :=
  (targets.lookup (value, mechanism)).getD
    (ensureExtension value (Format.forMechanism mechanism))

/-- The edits with an internal specifier changed. -/
def retarget (tree : SourceTree) (targets : SpecifierTargets) (spec : SpecifierNode)
    (mechanism : Mechanism) (edits : EditSet) : Except Failure EditSet := do
  if isInternal spec.value then
    let text ← writeSpecifier tree spec (newSpecifier targets spec.value mechanism)
    return edits.replace spec.node text
  else return edits

/-- What is done at a **node** of some statement. -/
def linkVisit (tree : SourceTree) (targets : SpecifierTargets) (index : Nat) (node : Node) :
    StateT LinkWork (Except Failure) Visit := do
  let (found, next) ← linkSite tree node
  match found with
  | none => return next
  | some (spec, mechanism) =>
    let w ← get
    let edits ← retarget tree targets spec mechanism w.edits
    let named ←
      if node.kind == "import_statement" then namedImport tree node index spec.value else pure none
    set { edits, imports := w.imports ++ named.toList : LinkWork }
    return next

/-- All **edits** that link a tree. -/
def linkEdits (fs : FileSystem) (importer : Path) (tree : SourceTree)
    (targets : SpecifierTargets) : Except Failure EditSet := do
  let (_, w) ← (tree.walk (linkVisit tree targets)).run {}
  addInterop fs importer tree w.imports w.edits

/-- The **linked** text of a tree that stands in some directory. -/
def link (fs : FileSystem) (importer : Path) (tree : SourceTree) (targets : SpecifierTargets) :
    Except Failure Text := do
  tree.emitted (← linkEdits fs importer tree targets)

end ScriptTree
