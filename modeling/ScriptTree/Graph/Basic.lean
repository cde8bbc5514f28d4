import ScriptTree.Module.Dependency

/-!
# Module graphs

A **module graph** holds the files that are reachable from an entry by internal specifiers, in the
order in which they are found, with the format chosen for each.
-/

namespace ScriptTree

/-- A **file** of a graph: where it is, the path by which it was first reached, what was known then,
the format chosen for it and its dependencies. -/
structure SourceFile where
  path : Path
  rawPath : Path
  hint : Text
  mechanism : Mechanism
  format : Format
  edges : List Edge

namespace SourceFile

def directory (s : SourceFile) : Path := s.path.parent

def internalEdges (s : SourceFile) : List Edge := s.edges.filter (·.isInternal)

end SourceFile

/-- A **conflict**: a file, the format it has, and a reference that needs the other one. -/
structure Conflict where
  path : Path
  format : Format
  mechanism : Mechanism
  referrer : Option Path
  specifier : Option Text
  deriving DecidableEq, Repr

/-- A **module graph**. An alias leads from a path as referred to, to the path of a file. The tree of
a file is kept under the path by which the file was first reached. -/
structure Graph where
  entry : Option Path := none
  files : List SourceFile := []
  aliases : List (Path × Path) := []
  conflicts : List Conflict := []
  trees : List (Path × SourceTree) := []

namespace Graph

def file? (g : Graph) (p : Path) : Option SourceFile := g.files.find? (·.path = p)

/-- The file that a path as referred to **leads** to. -/
def lookup (g : Graph) (raw : Path) : Option SourceFile := g.file? ((g.aliases.lookup raw).getD raw)

/-- The file that an internal specifier of a file leads to. -/
def dependency (g : Graph) (importer : SourceFile) (specifier : Text) : Option SourceFile :=
  g.lookup (dependencyPath importer.directory specifier)

/-- The **tree** that is kept for a file. -/
def treeFor (g : Graph) (file : SourceFile) : Except Failure SourceTree :=
  match g.trees.lookup file.rawPath with
  | some tree => .ok tree
  | none => .error (.defect (.missingKey file.rawPath.text))

end Graph

end ScriptTree
