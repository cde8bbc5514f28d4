import ScriptTree.Text.CodePoint

/-!
# Paths

A **path** is an anchor and a list of names. Reading a path drops empty and `.` names and keeps
`..`; a path that starts with exactly two slashes has an anchor of its own. Two paths are equal when
they are written alike, so nothing here looks at a file system.
-/

namespace ScriptTree

/-- Where a path starts: nowhere in particular, at the root, or at the root with two slashes. -/
inductive Anchor where
  | relative
  | root
  | doubleRoot
  deriving DecidableEq, Repr

/-- A **path**: an anchor and names. -/
structure Path where
  anchor : Anchor
  parts : List Text
  deriving DecidableEq, Repr

namespace Path

/-- The anchor that a text starts with: three slashes and more count as one. -/
def anchorOf : Text → Anchor
  | .scalar '/' :: .scalar '/' :: .scalar '/' :: _ => .root
  | .scalar '/' :: .scalar '/' :: _ => .doubleRoot
  | .scalar '/' :: _ => .root
  | _ => .relative

/-- Whether a piece between slashes counts as a name. -/
def isName (piece : Text) : Bool := piece != [] && piece != "."

/-- The path that a text **spells**. -/
def ofText (t : Text) : Path := ⟨anchorOf t, (t.splitOn (.scalar '/')).filter isName⟩

def anchorText : Anchor → Text
  | .relative => []
  | .root => "/"
  | .doubleRoot => "//"

/-- The **text** of a path; the empty path is written as a dot. -/
def text (p : Path) : Text :=
  if p.anchor = .relative ∧ p.parts = [] then "."
  else anchorText p.anchor ++ Text.join "/" p.parts

def isAbsolute (p : Path) : Bool := p.anchor != .relative

/-- One path **followed** by another; an absolute second path stands alone. -/
def join (p q : Path) : Path := if q.isAbsolute then q else ⟨p.anchor, p.parts ++ q.parts⟩

def child (p : Path) (name : Text) : Path := ⟨p.anchor, p.parts ++ [name]⟩

def parent (p : Path) : Path := ⟨p.anchor, p.parts.dropLast⟩

/-- The last name, empty if there is none. -/
def name (p : Path) : Text := p.parts.getLastD []

/-- The paths above a path, the nearest first. -/
def parents (p : Path) : List Path :=
  (List.range p.parts.length).map fun i => ⟨p.anchor, p.parts.take (p.parts.length - 1 - i)⟩

/-- The length of the part of a name before its last dot; nothing if the name holds no dot. -/
def lastDot? (name : Text) : Option Nat :=
  if name.contains (.scalar '.') then
    some (name.length - 1 - (name.reverse.takeWhile (· ≠ .scalar '.')).length)
  else none

/-- The **suffix** of a name: what starts at its last dot, if something stands on either side. -/
def suffixOf (name : Text) : Text :=
  match lastDot? name with
  | some i => if 0 < i ∧ i + 1 < name.length then name.drop i else []
  | none => []

def suffix (p : Path) : Text := suffixOf p.name

/-- The path with another suffix on its last name; a path without names has none to change. -/
def withSuffix? (p : Path) (suffix : Text) : Option Path :=
  match p.parts.getLast? with
  | none => none
  | some name =>
    some (p.parent.child (name.take (name.length - (suffixOf name).length) ++ suffix))

/-- What follows the names of `root` in a path that lies **below** it. -/
def relativeTo? (p root : Path) : Option (List Text) :=
  if p.anchor = root.anchor ∧ root.parts.isPrefixOf p.parts then
    some (p.parts.drop root.parts.length)
  else none

/-- Whether a path lies below another one or is that path. -/
def isBelow (p root : Path) : Bool := (p.relativeTo? root).isSome

/-- The path with the names that follow another path. -/
def append (p : Path) (names : List Text) : Path := ⟨p.anchor, p.parts ++ names⟩

end Path

end ScriptTree
