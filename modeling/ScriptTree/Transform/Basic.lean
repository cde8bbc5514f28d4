import ScriptTree.Grammar.Program
import ScriptTree.Transform.Enum
import ScriptTree.Transform.Import

/-!
# Plain scripts

A typed script with markup is made **plain**: what only states types is taken out, the constructs of
typed scripts that do something are compiled, and so is markup. All else stays as it is written,
byte for byte.
-/

namespace ScriptTree.Transform

/-- The edits so far, the elements met, the latest first, and the imports met, in order. -/
structure Work where
  edits : EditSet := {}
  elements : List Node := []
  imports : List Node := []

/-! ### Single constructs -/

/-- Takes a node out and leaves out what lies below it. -/
def removeNode (node : Node) (w : Work) : Visit × Work :=
  (.skip, { w with edits := w.edits.remove node })

/-- An export: of types it goes, an assigned one becomes an assignment, and items that are types
leave their list. -/
def visitExport (tree : SourceTree) (node : Node) (w : Work) : Except Failure (Visit × Work) :=
  if node.hasToken ["type"] || node.parts.any (typeOnlyStatements.contains ·.kind) then
    .ok (removeNode node w)
  else do
    let edits :=
      match node.children with
      | first :: second :: _ =>
        if second.kind == "=" then w.edits.replace first "module.exports" else w.edits
      | _ => w.edits
    let edits ← match node.part? "export_clause" with
      | none => .ok edits
      | some clause => do
        let items := clause.parts.filter (·.kind == "export_specifier")
        let kept := items.filter fun s => !s.hasToken ["type"]
        if kept.length = items.length then pure edits
        else
          let text := Text.join ", " (← kept.mapM tree.nodeText)
          pure (edits.replace clause
            (if text.isEmpty then "\x7b\x7d" else ("\x7b " : Text) ++ text ++ (" \x7d" : Text)))
    return (.continue, { w with edits })

/-- An import: of types it goes, one of a whole module becomes a call, and any other is put off. -/
def visitImport (tree : SourceTree) (node : Node) (w : Work) : Except Failure (Visit × Work) :=
  if node.hasToken ["type", "typeof"] then .ok (removeNode node w)
  else match node.part? "import_require_clause" with
    | some clause => do
      let binding ← tree.nodeText ((clause.part? "identifier").getD clause)
      let source ← tree.nodeText ((clause.child? .source).getD clause)
      let text := ("const " : Text) ++ binding ++ (" = require(" : Text) ++ source ++ (");" : Text)
      return (.skip, { w with edits := w.edits.replace node text })
    | none => return (.skip, { w with imports := w.imports ++ [node] })

/-- Another name for a name becomes a constant. -/
def visitAlias (tree : SourceTree) (node : Node) (w : Work) : Except Failure (Visit × Work) := do
  let parts := node.parts
  let binding ← tree.nodeText (parts.head?.getD node)
  let value ← tree.nodeText (parts.getLast?.getD node)
  let text := ("const " : Text) ++ binding ++ (" = " : Text) ++ value ++ (";" : Text)
  return (.skip, { w with edits := w.edits.replace node text })

/-- A property of a class: declared or abstract it goes, else it loses its marks. -/
def visitField (node : Node) (w : Work) : Visit × Work :=
  if node.hasToken ["declare", "abstract"] then removeNode node w
  else (.continue, { w with edits := removeTokens w.edits node ["readonly", "?", "!"] })

/-! ### Constructors -/

/-- Whether a parameter also declares a property. -/
def isProperty (parameter : Node) : Bool :=
  parameter.hasToken ["readonly"]
    || parameter.children.any (·.kind == "accessibility_modifier")

/-- The names of the properties that parameters declare. -/
def propertyNames (tree : SourceTree) (parameters : Node) : Except Failure (List Text) :=
  (parameters.parts.filterMap fun p =>
    if (p.kind == "required_parameter" || p.kind == "optional_parameter") && isProperty p then
      (p.child? .pattern).filter (·.kind == "identifier")
    else none).mapM tree.nodeText

/-- Whether a statement calls the constructor of the class above. -/
def callsSuper (statement : Node) : Bool :=
  statement.kind == "expression_statement"
    && (statement.parts.head?).any fun e =>
      e.kind == "call_expression" && (e.child? .function).any (·.kind == "super")

/-- Where properties are assigned: after the constructor of the class above is called, or at the
start of the body. -/
def propertyOffset (body : Node) : Nat :=
  match body.parts.find? callsSuper with
  | some statement => statement.stop
  | none => (body.children.head?.map (·.stop)).getD body.start

/-- Assignments of parameters to properties of the same names. -/
def propertyAssignments (names : List Text) : Text :=
  Text.join " " (names.map fun n =>
    ("this." : Text) ++ n ++ (" = " : Text) ++ n ++ (";" : Text))

/-- A method: it loses its mark, and a constructor assigns the properties that its parameters
declare. -/
def visitMethod (tree : SourceTree) (node : Node) (w : Work) : Except Failure (Visit × Work) := do
  let edits := removeTokens w.edits node ["?"]
  let done : Visit × Work := (.continue, { w with edits })
  match node.child? .name, node.child? .parameters, node.child? .body with
  | some name, some parameters, some body =>
    if (← tree.nodeText name) ≠ ("constructor" : Text) then return done
    let names ← propertyNames tree parameters
    if names.isEmpty then return done
    let text := [.scalar ' '] ++ propertyAssignments names
    return (.continue, { w with edits := edits.insertAt (propertyOffset body) text })
  | _, _, _ => return done

/-! ### The walk -/

/-- What is done at a **node**. -/
def visit (tree : SourceTree) (path : Option Path) (node : Node) (w : Work) :
    Except Failure (Visit × Work) :=
  let edited (edits : EditSet) : Except Failure (Visit × Work) := .ok (.continue, { w with edits })
  if removedKinds.contains node.kind then .ok (removeNode node w)
  else if namespaceKinds.contains node.kind then
    let (row, column) := tree.position node.start
    .error (.namespaceUsed path (row + 1) (column + 1))
  else if elementKinds.contains node.kind then
    .ok (.continue, { w with elements := node :: w.elements })
  else match node.kind with
    | "export_statement" => visitExport tree node w
    | "import_statement" => visitImport tree node w
    | "import_alias" => visitAlias tree node w
    | "enum_declaration" => do
      return (.skip, { w with edits := w.edits.replace node (← compileEnum tree w.edits node) })
    | "public_field_definition" => .ok (visitField node w)
    | "abstract_class_declaration" => edited (removeTokens w.edits node ["abstract"])
    | "method_definition" => visitMethod tree node w
    | "required_parameter" => edited (removeTokens w.edits node ["readonly", "?"])
    | "optional_parameter" => edited (removeTokens w.edits node ["readonly", "?"])
    | "variable_declarator" => edited (removeTokens w.edits node ["!"])
    | "as_expression" => edited ((node.children.drop 1).foldl EditSet.remove w.edits)
    | "satisfies_expression" => edited ((node.children.drop 1).foldl EditSet.remove w.edits)
    | "non_null_expression" =>
      edited ((node.children.getLast?.filter (·.kind == "!")).elim w.edits w.edits.remove)
    | _ => .ok (.continue, w)

/-- The work that a tree gives rise to. -/
def collect (tree : SourceTree) (path : Option Path) : Except Failure Work := do
  let visitor (_ : Nat) (node : Node) : StateT Work (Except Failure) Visit :=
    fun w => visit tree path node w
  let (_, w) ← (tree.walk visitor).run {}
  return w

/-- Compiles elements, the latest first, so that the outer ones hold the compiled inner ones. -/
def compileElements (tree : SourceTree) (names : MarkupNames) (edits : EditSet)
    (elements : List Node) : Except Failure EditSet :=
  elements.foldlM
    (fun edits node => do return edits.replace node (← compileElement tree edits names node)) edits

/-- All edits that make a tree plain; unused imports go if `elide`. -/
def plainEdits (tree : SourceTree) (names : MarkupNames) (elide : Bool) (path : Option Path) :
    Except Failure EditSet := do
  let w ← collect tree path
  let edits ← compileElements tree names w.edits w.elements
  let used ← if elide then some <$> usedNames tree names else pure none
  w.imports.foldlM (pruneImport tree used) edits

/-- The **plain text** of a tree. -/
def plainTree (tree : SourceTree) (names : MarkupNames) (elide : Bool) (path : Option Path) :
    Except Failure Text := do
  tree.emitted (← plainEdits tree names elide path)

/-! ### Scripts -/

/-- Extensions of typed scripts without markup. -/
def typedExtensions : List Text := [".ts", ".mts", ".cts"]

/-- Extensions of typed scripts, in which unused imports are left out. -/
def elidedExtensions : List Text := [".ts", ".mts", ".cts", ".tsx"]

/-- The extension of a file in small letters. -/
def extensionOf (path : Option Path) : Text :=
  match path with
  | some p => p.suffix.lowerAscii
  | none => []

/-- Reads a script that must be well formed at some stage. -/
def readAt (stage : Stage) (d : Dialect) (text : Text) (path : Option Path) :
    Except Failure SourceTree :=
  match text.chars? with
  | none => .error (.defect (.unencodable text))
  | some cs =>
    match SourceTree.readStrict d cs with
    | .ok tree => .ok tree
    | .error (tree, fault) =>
      let (row, column) := tree.position fault.start
      match tree.describeFault fault with
      | .ok description => .error (.malformed stage path (row + 1) (column + 1) description)
      | .error undecodable => .error (.defect (.undecodable undecodable))

/-- The **plain text** of a script; the extension of its path says which dialect it is in. -/
def plain (names : MarkupNames) (text : Text) (path : Option Path) : Except Failure Text := do
  let extension := extensionOf path
  let d := if typedExtensions.contains extension then Dialect.typed else .typedMarkup
  let tree ← readAt .transform d text path
  plainTree tree names (elidedExtensions.contains extension) path

end ScriptTree.Transform
