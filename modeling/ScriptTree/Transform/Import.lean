import ScriptTree.Transform.Kinds
import ScriptTree.Transform.Markup
import ScriptTree.Tree.Walk

/-!
# Imports and their use

An import that is used only in types must go, or the plain script would ask for a module that may
not have that name. A binding is kept when its name is **used**: when it occurs as an identifier
outside imports and outside what only states types.
-/

namespace ScriptTree.Transform

/-! ### Names in use -/

/-- The names seen on a walk, and whether there is markup. -/
structure NamesSeen where
  names : List Text := []
  hasMarkup : Bool := false

/-- Kinds below which no name counts as used. -/
def unusedKinds : List String := "import_statement" :: removedKinds

/-- Looks at one node on the way through a tree. -/
def seeName (tree : SourceTree) (node : Node) : StateT NamesSeen (Except Failure) Visit := do
  if unusedKinds.contains node.kind then return .skip
  else if node.kind == "identifier" || node.kind == "shorthand_property_identifier" then
    let text ← tree.nodeText node
    modify fun s => { s with names := text :: s.names }
    return .continue
  else if node.kind == "jsx_opening_element" || node.kind == "jsx_self_closing_element" then
    modify fun s => { s with hasMarkup := true }
    return .continue
  else return .continue

/-- The part of a dotted name before its first dot. -/
def firstName (t : Text) : Text := t.takeWhile (· ≠ .scalar '.')

/-- The names that a tree **uses**; markup uses the names it is compiled with. -/
def usedNames (tree : SourceTree) (names : MarkupNames) : Except Failure (List Text) := do
  let (_, seen) ← (tree.walk fun _ node => seeName tree node).run {}
  return if seen.hasMarkup then
    firstName names.factory :: firstName names.fragment :: seen.names
  else seen.names

/-! ### Pruning -/

/-- Whether a binding is kept: always, or when its name is used. -/
def isKept (used : Option (List Text)) (local_ : Text) : Bool :=
  match used with
  | none => true
  | some names => names.contains local_

/-- What is left of an import clause: its parts, the items of its list, whether it has a list, and
whether something was left out. -/
structure Pruned where
  parts : List Text := []
  items : List Text := []
  hasList : Bool := false
  changed : Bool := false

/-- One item of a list of imports. -/
def pruneItem (tree : SourceTree) (used : Option (List Text)) (p : Pruned) (item : Node) :
    Except Failure Pruned :=
  if item.kind != "import_specifier" then .ok p
  else if item.hasToken ["type", "typeof"] then .ok { p with changed := true }
  else do
    let bound := ((item.child? .alias).or (item.child? .name)).getD item
    if isKept used (← tree.nodeText bound) then
      return { p with items := p.items ++ [← tree.nodeText item] }
    else return { p with changed := true }

/-- One part of an import clause. -/
def prunePart (tree : SourceTree) (used : Option (List Text)) (p : Pruned) (part : Node) :
    Except Failure Pruned :=
  if part.kind == "identifier" then do
    let text ← tree.nodeText part
    return if isKept used text then { p with parts := p.parts ++ [text] }
      else { p with changed := true }
  else if part.kind == "namespace_import" then do
    let bound ← tree.nodeText ((part.part? "identifier").getD part)
    if isKept used bound then return { p with parts := p.parts ++ [← tree.nodeText part] }
    else return { p with changed := true }
  else if part.kind == "named_imports" then
    part.parts.foldlM (pruneItem tree used) { p with hasList := true }
  else .ok p

/-- The parts of a clause that has been pruned, with the list at the end. -/
def Pruned.clauseParts (p : Pruned) : List Text :=
  if p.hasList && !p.items.isEmpty then
    p.parts ++ [("\x7b " : Text) ++ Text.join ", " p.items ++ (" \x7d" : Text)]
  else p.parts

/-- An import **without** the bindings that are types or are not used; nothing left, the whole
statement goes. -/
def pruneImport (tree : SourceTree) (used : Option (List Text)) (edits : EditSet)
    (statement : Node) : Except Failure EditSet :=
  match statement.part? "import_clause" with
  | none => .ok edits
  | some clause => do
    let p ← clause.parts.foldlM (prunePart tree used) {}
    if !p.changed then return edits
    else if p.clauseParts.isEmpty then return edits.remove statement
    else return edits.replace clause (Text.join ", " p.clauseParts)

end ScriptTree.Transform
