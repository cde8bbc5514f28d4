import ScriptTree.FileSystem.Basic

/-!
# Looking up paths

A path is followed name by name, symbolic links included, up to forty of them. Looking changes
nothing.
-/

namespace ScriptTree.FileSystem

/-- The number of symbolic links that are followed on one way. -/
def linkLimit : Nat := 40

/-- Follows names from a location on. At a symbolic link, `onLink` takes over with the location of
the directory and the names that are left; the last link is followed only if `follow`. -/
def descend (fs : FileSystem) (follow : Bool)
    (onLink : Location → List Text → Except OsCause Location) (from_ : Location) :
    List Text → Except OsCause Location
  | [] => .ok from_
  | name :: rest =>
    match fs.entry? from_ with
    | none => .error .notFound
    | some (.file _ _) => .error .notDirectory
    | some (.link _) => .error .notDirectory
    | some .directory =>
      if name = Path.up then descend fs follow onLink from_.dropLast rest
      else
        let next := from_ ++ [name]
        match fs.entry? next with
        | none => .error .notFound
        | some (.link target) =>
          if rest = [] ∧ !follow then .ok next
          else
            let path := Path.ofText target
            onLink (if path.isAbsolute then [] else from_) (path.parts ++ rest)
        | some _ => descend fs follow onLink next rest

/-- Follows names from a location on, with a number of links left to follow. -/
def locateFrom (fs : FileSystem) (follow : Bool) : Nat → Location → List Text →
    Except OsCause Location
  | 0, from_, names => fs.descend follow (fun _ _ => .error .tooManyLinks) from_ names
  | links + 1, from_, names => fs.descend follow (fs.locateFrom follow links) from_ names

/-- The **location** that a path leads to. -/
def locate (fs : FileSystem) (follow : Bool) (p : Path) : Except OsCause Location :=
  fs.locateFrom follow linkLimit (if p.isAbsolute then [] else fs.cwd) p.parts

/-- The length of the longest location. -/
def depth (fs : FileSystem) : Nat := fs.entries.foldl (fun d e => max d e.1.length) 0

/-- A **bound** on the number of absolute paths without `..` that lead to entries. Every name on
such a path is the last name of an entry, and between two links it goes down at most to the
greatest depth. -/
def fileBound (fs : FileSystem) : Nat :=
  2 * Nat.pow (fs.entries.length + 1) ((linkLimit + 1) * (fs.depth + 1))

/-- The entry that a path leads to, links followed. -/
def stat (fs : FileSystem) (p : Path) : Except OsCause (Location × Entry) := do
  let l ← fs.locate true p
  match fs.entry? l with
  | some e => .ok (l, e)
  | none => .error .notFound

def isFile (fs : FileSystem) (p : Path) : Bool :=
  match fs.stat p with
  | .ok (_, .file _ _) => true
  | _ => false

def isDirectory (fs : FileSystem) (p : Path) : Bool :=
  match fs.stat p with
  | .ok (_, .directory) => true
  | _ => false

def exists_ (fs : FileSystem) (p : Path) : Bool :=
  match fs.stat p with
  | .ok _ => true
  | .error _ => false

def isLink (fs : FileSystem) (p : Path) : Bool :=
  match fs.locate false p with
  | .ok l =>
    match fs.entry? l with
    | some (.link _) => true
    | _ => false
  | .error _ => false

/-- An operation at a path that fails for a cause. -/
def failAt {α : Type} (p : Path) (r : Except OsCause α) : Except OsError α :=
  match r with
  | .ok a => .ok a
  | .error cause => .error ⟨cause, p.text⟩

/-- The **content** of a file. -/
def read (fs : FileSystem) (p : Path) : Except OsError Bytes :=
  failAt p do
    match ← fs.stat p with
    | (_, .file content _) => .ok content
    | (_, .directory) => .error .isDirectory
    | (_, .link _) => .error .tooManyLinks

/-- The **names** in a directory. -/
def list (fs : FileSystem) (p : Path) : Except OsError (List Text) :=
  failAt p do
    match ← fs.stat p with
    | (l, .directory) => .ok (fs.names l)
    | _ => .error .notDirectory

end ScriptTree.FileSystem
