import ScriptTree.Failure
import ScriptTree.Graph.Basic

/-!
# Output plans

A **plan** says where each file of a graph is written: below the output directory, laid out as the
files are below their common root, with the extension of the format. It also says how each file
refers to the others there.
-/

namespace ScriptTree

/-- The first of some directories below which all paths lie; the last one if there is none. -/
def firstAbove (paths : List Path) (directory : Path) : List Path → Path
  | [] => directory
  | next :: rest =>
    if paths.all (·.isBelow directory) then directory else firstAbove paths next rest

/-- The nearest directory, from a starting one upwards, **below** which all paths lie. -/
def commonRoot (start : Path) (paths : List Path) : Path := firstAbove paths start start.parents

/-- The **specifier** of a file seen from a directory; it always starts with a dot. -/
def relativeSpecifier (target from_ : Path) : Text :=
  let t := (target.relative from_).text
  if t.startsWith "../" then t else ("./" : Text) ++ t

/-- A **plan**: the output directory, the common root, and where each file goes. -/
structure Plan where
  outputDirectory : Path
  root : Path
  targets : List (Path × Path)
  deriving DecidableEq, Repr

/-- New specifiers for specifiers and the mechanisms by which they are used. -/
abbrev SpecifierTargets := List ((Text × Mechanism) × Text)

namespace Plan

def suffixed (p : Path) (suffix : Text) : Except Failure Path :=
  match p.withSuffix? suffix with
  | some q => .ok q
  | none => .error (.defect (.emptyName p))

/-- Where a file is **written**. -/
def targetOf (outputDirectory root : Path) (file : SourceFile) : Except Failure Path :=
  match file.path.relativeTo? root with
  | none => .error (.defect (.outside file.path root))
  | some names => do
    return outputDirectory.append (← suffixed ⟨.relative, names⟩ file.format.extension).parts

/-- The targets with one more file; no two files may share one. -/
def addTarget (outputDirectory root : Path) (targets : List (Path × Path)) (file : SourceFile) :
    Except Failure (List (Path × Path)) := do
  let target ← targetOf outputDirectory root file
  match targets.find? (·.2 = target) with
  | some (owner, _) => .error (.write target (.shared owner file.path))
  | none => return targets ++ [(file.path, target)]

/-- Where the search for the common root starts: beside the entry. -/
def startOf (outputDirectory : Path) (g : Graph) : Path :=
  match g.entry, g.files with
  | some entry, _ => entry.parent
  | none, file :: _ => file.path.parent
  | none, [] => outputDirectory

/-- The **plan** of a graph for an output directory. -/
def make (cwd : Path) (g : Graph) (output : Path) : Except Failure Plan := do
  let outputDirectory := Path.absolute cwd output
  let root := commonRoot (startOf outputDirectory g) (g.files.map (·.path))
  let targets ← g.files.foldlM (addTarget outputDirectory root) []
  return ⟨outputDirectory, root, targets⟩

/-- Where the file at a path is written. -/
def targetFor (plan : Plan) (p : Path) : Except Failure Path :=
  match plan.targets.lookup p with
  | some target => .ok target
  | none => .error (.defect (.missingKey p.text))

/-- The new specifier for an edge of a file that is written to a directory, if it leads to a file of
the graph. The mechanism alone decides on the extension. -/
def specifierTarget (plan : Plan) (g : Graph) (file : SourceFile) (directory : Path) (e : Edge) :
    Except Failure (Option Text) :=
  match g.dependency file e.specifier with
  | none => .ok none
  | some dependency => do
    let target ←
      suffixed (← plan.targetFor dependency.path) (Format.forMechanism e.mechanism).extension
    return some
      (if e.specifier.startsWith "/" then target.text else relativeSpecifier target directory)

/-- The **new specifiers** of a file, each once, in the order of their first use. -/
def specifierTargets (plan : Plan) (g : Graph) (file : SourceFile) :
    Except Failure SpecifierTargets := do
  let directory := (← plan.targetFor file.path).parent
  file.internalEdges.foldlM
    (fun (found : SpecifierTargets) e => do
      let key := (e.specifier, e.mechanism)
      if (found.lookup key).isSome then return found
      match ← plan.specifierTarget g file directory e with
      | some value => return found ++ [(key, value)]
      | none => return found)
    []

end Plan

end ScriptTree
