import ScriptTree.FileSystem.OsError
import ScriptTree.Path.Normal
import ScriptTree.Text.Utf8

/-!
# File systems

A **file system** is a value: entries at locations, and a working directory. A location is the list
of names from the root on; an entry is a file, a directory or a symbolic link. The root is always a
directory.
-/

namespace ScriptTree

/-- A place in a file system: the names from the root on. -/
abbrev Location := List Text

inductive Entry where
  | file (content : Bytes) (executable : Bool)
  | directory
  | link (target : Text)
  deriving DecidableEq, Repr

/-- A **file system**: entries at locations, and a working directory. -/
structure FileSystem where
  entries : List (Location × Entry)
  cwd : Location
  deriving Repr

namespace FileSystem

def here (fs : FileSystem) : Path := ⟨.root, fs.cwd⟩

/-- The **entry** at a location, links not followed. -/
def entry? (fs : FileSystem) (l : Location) : Option Entry :=
  if l = [] then some .directory else fs.entries.lookup l

/-- The file system with an entry put at a location. -/
def put (fs : FileSystem) (l : Location) (e : Entry) : FileSystem :=
  if fs.entries.any (·.1 = l) then
    { fs with entries := fs.entries.map fun p => if p.1 = l then (l, e) else p }
  else { fs with entries := fs.entries ++ [(l, e)] }

def erase (fs : FileSystem) (l : Location) : FileSystem :=
  { fs with entries := fs.entries.filter (·.1 ≠ l) }

/-- The file system without the entry at a location and without all entries below it. -/
def eraseTree (fs : FileSystem) (l : Location) : FileSystem :=
  { fs with entries := fs.entries.filter fun p => !l.isPrefixOf p.1 }

def names (fs : FileSystem) (l : Location) : List Text :=
  fs.entries.filterMap fun p =>
    match p.1.getLast? with
    | some name => if p.1.dropLast = l then some name else none
    | none => none

end FileSystem

end ScriptTree
