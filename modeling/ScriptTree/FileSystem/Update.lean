import ScriptTree.FileSystem.Lookup

/-!
# Changing file systems

Operations that make, write and remove entries. Each gives the new file system, or fails and then
nothing has changed.
-/

namespace ScriptTree.FileSystem

/-- The location where the last name of a path would be made: its directory must exist. -/
def newLocation (fs : FileSystem) (p : Path) : Except OsCause Location := do
  let (l, e) ← fs.stat p.parent
  match e with
  | .directory => .ok (l ++ [p.name])
  | _ => .error .notDirectory

def makeDirectory (fs : FileSystem) (p : Path) : Except OsError FileSystem :=
  failAt p do
    match fs.locate false p with
    | .ok _ => .error .exists
    | .error .notFound =>
      let l ← fs.newLocation p
      .ok (fs.put l .directory)
    | .error cause => .error cause

/-- Makes a directory and those above it, as far as they do not exist; `n` bounds how many. -/
def makeParentsFrom : Nat → FileSystem → Path → Except OsError FileSystem
  | 0, fs, p => fs.makeDirectory p
  | n + 1, fs, p =>
    match fs.makeDirectory p with
    | .ok fs => .ok fs
    | .error e =>
      if e.cause = .notFound ∧ p.parts ≠ [] then
        match makeParentsFrom n fs p.parent with
        | .error e => .error e
        | .ok fs =>
          match fs.makeDirectory p with
          | .ok fs => .ok fs
          | .error e => if fs.isDirectory p then .ok fs else .error e
      else if fs.isDirectory p then .ok fs
      else .error e

/-- Makes a directory and all **above** it; those that exist are left as they are. -/
def makeParents (fs : FileSystem) (p : Path) : Except OsError FileSystem :=
  makeParentsFrom p.parts.length fs p

/-- Where a new file is made when nothing stands at a path: at the path, or where a symbolic link
there leads. -/
def creationLocation (fs : FileSystem) : Nat → Path → Except OsCause Location
  | 0, _ => .error .tooManyLinks
  | links + 1, p => do
    let l ← fs.newLocation p
    match fs.entry? l with
    | some (.link target) =>
      creationLocation fs links ((⟨.root, l.dropLast⟩ : Path).join (Path.ofText target))
    | _ => .ok l

/-- **Writes** a file: what was in it goes, and a file that does not exist is made. -/
def write (fs : FileSystem) (p : Path) (content : Bytes) : Except OsError FileSystem :=
  failAt p do
    match fs.stat p with
    | .ok (l, .file _ executable) => .ok (fs.put l (.file content executable))
    | .ok (_, _) => .error .isDirectory
    | .error .notFound =>
      let l ← fs.creationLocation linkLimit p
      .ok (fs.put l (.file content false))
    | .error cause => .error cause

def unlink (fs : FileSystem) (p : Path) : Except OsError FileSystem :=
  failAt p do
    let l ← fs.locate false p
    match fs.entry? l with
    | some .directory => .error .isDirectory
    | some _ => .ok (fs.erase l)
    | none => .error .notFound

/-- Removes a directory with all that is **below** it. -/
def removeTree (fs : FileSystem) (p : Path) : Except OsError FileSystem :=
  failAt p do
    let l ← fs.locate false p
    match fs.entry? l with
    | some .directory => .ok (fs.eraseTree l)
    | some _ => .error .notDirectory
    | none => .error .notFound

/-- The files below a directory with their paths from there, in no particular order; links to files
count, and links to directories are not entered. -/
def filesBelow (fs : FileSystem) (l : Location) : List (List Text × Bytes) :=
  fs.entries.filterMap fun (at_, e) =>
    if l.isPrefixOf at_ ∧ l ≠ at_ then
      let relative := at_.drop l.length
      match e with
      | .file content _ => some (relative, content)
      | .link _ =>
        match fs.stat ⟨.root, at_⟩ with
        | .ok (_, .file content _) => some (relative, content)
        | _ => none
      | .directory => none
    else none

end ScriptTree.FileSystem
