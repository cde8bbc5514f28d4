import ScriptTree.Json.File
import ScriptTree.Resolve.Exports
import ScriptTree.Resolve.File

/-!
# Installed packages

A specifier that is neither internal nor built in names a package and a subpath in it. The package
is looked for in the `node_modules` directories from the importing directory upwards, and its
manifest says which file the subpath stands for.
-/

namespace ScriptTree

/-- The **name** of the package and the subpath that a specifier names. -/
def splitPackage (specifier : Text) : Text × Text :=
  let pieces := specifier.splitOn (.scalar '/')
  let count := if specifier.startsWith "@" && 1 < pieces.length then 2 else 1
  let rest := pieces.drop count
  (Text.join "/" (pieces.take count), if rest.isEmpty then "." else ("./" : Text) ++ Text.join "/" rest)

namespace FileSystem

/-- The **manifest** of a package. -/
def manifest (fs : FileSystem) (package : Path) : Except Failure (List (Text × Json)) :=
  (fs.json (package.child "package.json")).map Json.fields

/-- The file that a path inside a package stands for. -/
def resolveInside (fs : FileSystem) (path : Path) (specifier : Text) : Except Failure Path :=
  let path := path.normal
  let candidate := if fs.isDirectory path then path.child indexStem else path
  fs.resolve candidate ".js" .imported (some specifier)

def mainOf (manifest : List (Text × Json)) : Text :=
  match (manifest.lookup ("main" : Text)).bind Json.text? with
  | some main => if main.isEmpty then "index.js" else main
  | none => "index.js"

/-- The file that a subpath of a package stands for. -/
def resolveSubpath (fs : FileSystem) (package : Path) (subpath specifier : Text) :
    Except Failure Path := do
  let manifest ← fs.manifest package
  match manifest.lookup ("exports" : Text) with
  | some exports =>
    match matchExports exports subpath with
    | some target => fs.resolveInside (package.join (Path.ofText target)) specifier
    | none =>
      throw (.resolution .imported (package.join (Path.ofText subpath)) (some specifier))
  | none =>
    if subpath = "." then
      fs.resolveInside (package.join (Path.ofText (mainOf manifest))) specifier
    else fs.resolveInside (package.join (Path.ofText subpath)) specifier

/-- Where a package of some name would be installed for a directory. -/
def packagePath (directory : Path) (name : Text) : Path :=
  (directory.child "node_modules").join (Path.ofText name)

/-- The **file** that a specifier loads from a directory. -/
def resolvePackage (fs : FileSystem) (specifier : Text) (importer : Path) : Except Failure Path :=
  let (name, subpath) := splitPackage specifier
  match (importer :: importer.parents).find? fun d => fs.isDirectory (packagePath d name) with
  | some directory => fs.resolveSubpath (packagePath directory name) subpath specifier
  | none => .error (.resolution .imported (packagePath importer name) (some specifier))

end FileSystem

end ScriptTree
