import ScriptTree.FileSystem.Lookup
import ScriptTree.Grammar.Program
import ScriptTree.Module.Dependency

/-!
# The format of a file

The name of a file may fix its format. If it does not, the file is read: static imports or exports
anywhere in it make it static. Installed packages need not be well formed, so reading is lenient
here.
-/

namespace ScriptTree

/-- The **text** of a file, its line ends unified. -/
def FileSystem.readText (fs : FileSystem) (p : Path) : Except Failure Text :=
  match fs.read p with
  | .error e => .error (.read p (.os e))
  | .ok bytes =>
    match Utf8.decode bytes with
    | .error fault => .error (.read p (.undecodable fault))
    | .ok cs => .ok (Text.unifyLineEnds (Text.ofChars cs))

/-- The format of a tree: static if something in it is only found in static modules. -/
def classifyTree (tree : SourceTree) : Format := if hasModuleSyntax tree then .static else .dynamic

/-- The **format** of a text, which need not be well formed. -/
def classifySource (text : Text) : Except Failure Format :=
  match text.chars? with
  | none => .error (.defect (.unencodable text))
  | some cs => .ok (classifyTree (SourceTree.read .plain cs))

/-- The format of a **file**, which is read only if its name does not fix the format. -/
def FileSystem.classify (fs : FileSystem) (p : Path) : Except Failure Format :=
  match Format.ofName? p.text with
  | some format => .ok format
  | none => do classifySource (← fs.readText p)

end ScriptTree
