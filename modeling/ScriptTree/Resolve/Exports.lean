import ScriptTree.Json.Basic

/-!
# Package exports

A package says in its manifest which file each of its subpaths stands for. A target is a path, a
list of targets, of which the first that leads somewhere counts, or targets under conditions. A
subpath with a star stands for many: the star matches any text, and the target is filled in with it.
-/

namespace ScriptTree

namespace Exports

def conditions : List Text := ["node", "import", "default"]

mutual

/-- The path that a **target** leads to. -/
def target? : Json → Option Text
  | .string path => some path
  | .array items => firstItem? items
  | .object fields => firstField? fields
  | _ => none

/-- The path that the first of some targets leads to. -/
def firstItem? : List Json → Option Text
  | [] => none
  | item :: rest => (target? item).or (firstItem? rest)

/-- The path that the first of some targets whose condition holds leads to. -/
def firstField? : List (Text × Json) → Option Text
  | [] => none
  | (condition, value) :: rest =>
    if conditions.contains condition then (target? value).or (firstField? rest)
    else firstField? rest

end

/-- A **pattern**: what stands before and after the one star of a subpath, and the target. -/
structure Pattern where
  front : Text
  back : Text
  target : Json

/-- The pattern of a field whose name has exactly one star. -/
def Pattern.ofField? (field : Text × Json) : Option Pattern :=
  match field.1.splitOn (.scalar '*') with
  | [front, back] => some ⟨front, back, field.2⟩
  | _ => none

/-- The text that the star **matches** in a subpath. -/
def Pattern.match? (p : Pattern) (subpath : Text) : Option Text :=
  if p.front.isPrefixOf subpath && p.back.isSuffixOf subpath
      && p.front.length + p.back.length ≤ subpath.length then
    some ((subpath.take (subpath.length - p.back.length)).drop p.front.length)
  else none

/-- The better of two matches: the longer front, and of equals the first. -/
def better (best : Option (Pattern × Text)) (found : Pattern × Text) : Option (Pattern × Text) :=
  match best with
  | some b => if b.1.front.length < found.1.front.length then some found else some b
  | none => some found

/-- The best match of a subpath among fields. -/
def bestMatch? (fields : List (Text × Json)) (subpath : Text) : Option (Pattern × Text) :=
  ((fields.filterMap Pattern.ofField?).filterMap fun p =>
    (p.match? subpath).map (p, ·)).foldl better none

/-- A target with every star filled in. -/
def fill (middle target : Text) : Text :=
  target.mapText fun c => if c = .scalar '*' then middle else [c]

/-- The path that a subpath leads to when fields name subpaths. -/
def matchFields (fields : List (Text × Json)) (subpath : Text) : Option Text :=
  match fields.lookup subpath with
  | some value => target? value
  | none => do
    let (pattern, middle) ← bestMatch? fields subpath
    let target ← target? pattern.target
    if target.isEmpty then none else some (fill middle target)

end Exports

/-- The path that a **subpath** leads to in the exports of a package. Exports that name no subpaths
are those of the package itself. -/
def matchExports (exports : Json) (subpath : Text) : Option Text :=
  let whole := if subpath = "." then Exports.target? exports else none
  match exports with
  | .string _ => whole
  | .array _ => whole
  | .object fields =>
    if fields.any fun f => f.1.startsWith "." then Exports.matchFields fields subpath else whole
  | _ => none

end ScriptTree
