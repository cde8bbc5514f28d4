import ScriptTree.FileSystem.Lookup
import ScriptTree.Failure

/-!
# Files that a path stands for

A reference may leave out the extension of a file, or name a directory and mean an index file in it.
`pick` chooses among the names that a directory offers by a fixed order of preference, and
`FileSystem.resolve` looks the names up.
-/

namespace ScriptTree

/-- A **choice**: a sibling of the candidate or an index file in it, by name. -/
inductive Choice where
  | sibling (name : Text)
  | index (name : Text)
  deriving DecidableEq, Repr

/-- Extensions that are tried after the one that is hinted at. -/
def fallbackExtensions : List Text := [".tsx", ".ts", ".mjs", ".cjs", ".jsx", ".js"]

/-- The stem of index files. -/
def indexStem : Text := "index"

/-- The name that stands alone in a list, however often. -/
def sole? : List Text → Option Text
  | [] => none
  | name :: rest => if rest.all (· = name) then some name else none

/-- The first name, made of a stem and one of some extensions, that a list holds. -/
def firstNamed? (stem : Text) (extensions : List Text) (names : List Text) : Option Text :=
  (extensions.map (stem ++ ·)).find? names.contains

/-- What a hinted extension leads to: a sibling before an index file. -/
def pickHinted (name hint : Text) (siblings indices : List Text) : Option Choice :=
  if hint.isEmpty then none
  else if siblings.contains (name ++ hint) then some (.sibling (name ++ hint))
  else if indices.contains (indexStem ++ hint) then some (.index (indexStem ++ hint))
  else none

/-- What the known extensions lead to: an index file before a sibling. -/
def pickKnown (name hint : Text) (siblings indices : List Text) : Option Choice :=
  let extensions := hint :: fallbackExtensions
  ((firstNamed? indexStem extensions indices).map .index).or
    ((firstNamed? name extensions siblings).map .sibling)

/-- What is left: an index file without extension, the only index file, the only sibling. -/
def pickOnly (siblings indices : List Text) : Option Choice :=
  if indices.contains indexStem then some (.index indexStem)
  else ((sole? indices).map .index).or ((sole? siblings).map .sibling)

/-- The **preferred** one of the files that may stand for a name. -/
def pick (name hint : Text) (siblings indices : List Text) : Option Choice :=
  ((pickHinted name hint siblings indices).or (pickKnown name hint siblings indices)).or
    (pickOnly siblings indices)

/-- Whether a name is a stem, alone or with an extension. -/
def hasStem (stem name : Text) : Bool := name == stem || name.startsWith (stem ++ [.scalar '.'])

namespace FileSystem

/-- Whether a code point can be part of a name: the upper half of the low surrogates stands for
bytes. -/
def isEncodable (c : CodePoint) : Bool :=
  match c.char? with
  | some _ => true
  | none => 0xDC80 ≤ c.toNat && c.toNat < 0xDD00

/-- What keeps a path from being looked up at all. -/
def pathDefect? (p : Path) : Option Defect :=
  if !p.text.all isEncodable then some (.unencodable p.text)
  else if p.text.contains (.scalar '\x00') then some .nul
  else none

def filesWithStem (fs : FileSystem) (directory : Path) (names : List Text) (stem : Text) :
    List Text :=
  names.filter fun n => hasStem stem n && fs.isFile (directory.child n)

/-- The names of the index files in a directory; something else has none. -/
def indexFiles (fs : FileSystem) (candidate : Path) : Except Failure (List Text) :=
  if fs.isDirectory candidate then
    match fs.list candidate with
    | .error e => .error (.read candidate (.os e))
    | .ok names => .ok (fs.filesWithStem candidate names indexStem)
  else .ok []

def choicePath (candidate : Path) : Choice → Path
  | .sibling name => candidate.parent.child name
  | .index name => candidate.child name

/-- The one **file** that a candidate path stands for: itself, or the preferred one of its siblings
and index files. -/
def resolve (fs : FileSystem) (candidate : Path) (hint : Text) (mechanism : Mechanism)
    (specifier : Option Text) : Except Failure Path := do
  if fs.isFile candidate then return candidate
  if let some defect := pathDefect? candidate.parent then throw (.defect defect)
  match fs.list candidate.parent with
  | .error e =>
    if e.cause = .notFound ∨ e.cause = .notDirectory then
      throw (.resolution mechanism candidate specifier)
    else throw (.read candidate.parent (.os e))
  | .ok names =>
    let siblings := fs.filesWithStem candidate.parent names candidate.name
    let indices ← if names.contains candidate.name then fs.indexFiles candidate else pure []
    match pick candidate.name hint siblings indices with
    | some choice => return choicePath candidate choice
    | none => throw (.resolution mechanism candidate specifier)

end FileSystem

end ScriptTree
