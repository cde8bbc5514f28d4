import ScriptTree.Path.Basic

/-!
# Normal paths

`Path.normal` resolves the names `..` as written, without looking at links. `Path.absolute` puts a
working directory in front. `Path.relativeParts` is the shortest way from one directory to another
place, and `Path.pretty` is how messages show a path.
-/

namespace ScriptTree.Path

/-- The name that steps up. -/
def up : Text := ".."

/-- One name added to normal names held in reverse: `..` takes a name away where there is one, is
dropped at an anchor and kept otherwise. -/
def pushNormal (anchored : Bool) (seen : List Text) (name : Text) : List Text :=
  if name ≠ up then name :: seen
  else match seen with
    | [] => if anchored then [] else [up]
    | top :: below => if top = up then up :: seen else below

/-- The **normal** form of a path. -/
def normal (p : Path) : Path :=
  ⟨p.anchor, (p.parts.foldl (pushNormal p.isAbsolute) []).reverse⟩

/-- The path in **absolute** normal form, seen from a working directory. -/
def absolute (cwd p : Path) : Path := (cwd.join p).normal

/-- The number of names that two lists share at their start. -/
def sharedLength : List Text → List Text → Nat
  | a :: as, b :: bs => if a = b then sharedLength as bs + 1 else 0
  | _, _ => 0

/-- The names of the way from a directory to a path, both absolute: up to what they share, then
down. Anchors do not count. -/
def relativeParts (target from_ : Path) : List Text :=
  let n := sharedLength from_.normal.parts target.normal.parts
  List.replicate (from_.normal.parts.length - n) up ++ target.normal.parts.drop n

/-- The way from one path to another as a path of its own. -/
def relative (target from_ : Path) : Path := ⟨.relative, relativeParts target from_⟩

/-- A text as **shown** to someone in a working directory: what lies below it is shown from there. -/
def prettyText (cwd : Path) (t : Text) : Text :=
  let here := cwd.text
  let below := here.dropEnd (· = .scalar '/') ++ [.scalar '/']
  if t = here ∨ t.startsWith below then ((absolute cwd (ofText t)).relative cwd).text else t

/-- A path as shown to someone in a working directory. -/
def pretty (p cwd : Path) : Text := prettyText cwd p.text

end ScriptTree.Path
