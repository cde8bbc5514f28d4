import ScriptTree.Module.Classify
import ScriptTree.Module.Specifier
import ScriptTree.Resolve.Package
import ScriptTree.Text.Digest

/-!
# Named imports from dynamic packages

A static file cannot import names from a package of the dynamic format, only the package as a whole.
Such an import is turned into an import of the whole, followed by a declaration that takes the names
out of it.
-/

namespace ScriptTree

/-- A statement that imports **names** from a package: its position, its clause, the specifier, the
name for the whole if there is one, and the names taken with their local names. -/
structure NamedImport where
  statement : Node
  index : Nat
  clause : Node
  specifier : Text
  defaultLocal : Option Text
  bindings : List (Text × Text)

/-- The names that a clause takes, as far as it was read: the name for the whole, and the others. -/
structure ClauseNames where
  defaultLocal : Option Text := none
  bindings : List (Text × Text) := []

namespace ClauseNames

/-- The spellings of the name that stands for the whole. -/
def defaultSpellings : List Text := ["default", "'default'", "\"default\""]

/-- One more name; the first one that stands for the whole is taken as its name. -/
def add (names : ClauseNames) (imported localName : Text) : ClauseNames :=
  if defaultSpellings.contains imported ∧ names.defaultLocal = none then
    { names with defaultLocal := some localName }
  else { names with bindings := names.bindings ++ [(imported, localName)] }

/-- One more item of a list of names. -/
def addItem (tree : SourceTree) (names : ClauseNames) (item : Node) :
    Except Failure ClauseNames := do
  if item.kind != "import_specifier" then return names
  let imported ← tree.nodeText ((item.child? .name).getD item)
  let localName ← match item.child? .alias with
    | some «alias» => tree.nodeText «alias»
    | none => pure imported
  return names.add imported localName

/-- One more part of a clause; anything but names ends the reading. -/
def addPart (tree : SourceTree) (names : ClauseNames) (part : Node) :
    Except Failure (Option ClauseNames) := do
  if part.kind == "identifier" then
    return some { names with defaultLocal := some (← tree.nodeText part) }
  else if part.kind == "named_imports" then
    return some (← (part.children.filter (·.named)).foldlM (addItem tree) names)
  else return none

/-- The names that some parts of a clause take, nothing if they take anything else. -/
def ofParts (tree : SourceTree) (names : ClauseNames) :
    List Node → Except Failure (Option ClauseNames)
  | [] => .ok (some names)
  | part :: rest => do
    match ← names.addPart tree part with
    | some names => ofParts tree names rest
    | none => return none

end ClauseNames

/-- What an import statement with some specifier **takes** from a package. -/
def namedImport (tree : SourceTree) (statement : Node) (index : Nat) (specifier : Text) :
    Except Failure (Option NamedImport) :=
  if isInternal specifier || isBuiltin specifier then .ok none
  else match statement.children.find? (fun c => c.named && c.kind == "import_clause") with
    | none => .ok none
    | some clause => do
      match ← ClauseNames.ofParts tree {} (clause.children.filter (·.named)) with
      | none => return none
      | some names =>
        if names.bindings.isEmpty then return none
        else return some ⟨statement, index, clause, specifier, names.defaultLocal, names.bindings⟩

/-- The **name** for a package imported as a whole by the statement at some position. -/
def interopBinding (specifier : Text) (index : Int) : Except Failure Text :=
  let message := specifier ++ (":" : Text) ++ Text.ofInt index
  match Utf8.encode? message with
  | .ok bytes => .ok (("xnr_" : Text) ++ Text.ofChars ((Digest.sha256 bytes).take 12))
  | .error _ => .error (.defect (.unencodable message))

/-- How a name is taken out of the whole. -/
def bindingText (binding : Text × Text) : Text :=
  if binding.1 = binding.2 then binding.2 else binding.1 ++ (": " : Text) ++ binding.2

/-- The declaration that takes names out of the whole, put after the statement. -/
def interopDeclaration (item : NamedImport) (statementText binding : Text) : Text :=
  let separator : Text := if statementText.stripEnd.endsWith ";" then [] else ";"
  separator ++ (" const \x7b " : Text) ++ Text.join ", " (item.bindings.map bindingText)
    ++ (" \x7d = " : Text) ++ binding ++ (";" : Text)

/-- The edits for one import from a dynamic package. -/
def interopEdits (tree : SourceTree) (edits : EditSet) (item : NamedImport) :
    Except Failure EditSet := do
  let binding ← match item.defaultLocal with
    | some name => if name.isEmpty then interopBinding item.specifier item.index else pure name
    | none => interopBinding item.specifier item.index
  let statementText ← tree.nodeText item.statement
  return (edits.replace item.clause binding).insertAfter item.index
    (interopDeclaration item statementText binding)

/-- The format of the package that a specifier loads from a directory. -/
def externalFormat (fs : FileSystem) (importer : Path) (specifier : Text) :
    Except Failure Format := do
  fs.classify (← fs.resolvePackage specifier importer)

/-- The **edits** for all imports of names from dynamic packages. -/
def addInterop (fs : FileSystem) (importer : Path) (tree : SourceTree) (items : List NamedImport)
    (edits : EditSet) : Except Failure EditSet := do
  let specifiers := (items.map (·.specifier)).eraseDups
  let formats ← specifiers.mapM (externalFormat fs importer)
  let dynamic := (specifiers.zip formats).filterMap fun (s, f) =>
    if f = .dynamic then some s else none
  (items.filter (dynamic.contains ·.specifier)).foldlM (interopEdits tree) edits

end ScriptTree
