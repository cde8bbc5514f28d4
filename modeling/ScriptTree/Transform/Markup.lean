import ScriptTree.Text.Blank
import ScriptTree.Text.Entity
import ScriptTree.Text.JsonString
import ScriptTree.Text.CharClass
import ScriptTree.Transform.Kinds

/-!
# Markup

An element is compiled to a call of a factory: the tag, the attributes as an object, and the
children. Text between tags is trimmed line by line, character references in it are replaced, and
the compiled text gets as many line feeds as the element had, so that what follows stays on its
line.
-/

namespace ScriptTree

/-- The names that compiled markup uses: the **factory**, and the tag of an element without one. -/
structure MarkupNames where
  factory : Text := "React.createElement"
  fragment : Text := "React.Fragment"
  deriving DecidableEq, Repr

namespace Transform

/-! ### Text between tags -/

/-- The lines of a text; a carriage return, a line feed or both in this order end a line. -/
def lines (t : Text) : List Text := t.unifyLineEnds.splitOn (.scalar '\n')

/-- Whether a code point is a space or a tab. -/
def isPadding (c : CodePoint) : Bool := c = .scalar ' ' ∨ c = .scalar '\t'

/-- Whether a line holds something other than spaces and tabs. -/
def isFilled (line : Text) : Bool := !line.all isPadding

/-- A line with its tabs made spaces, and trimmed at the ends that face another line. -/
def trimLine (line : Text) (first last : Bool) : Text :=
  let spaced := line.map fun c => if c = .scalar '\t' then .scalar ' ' else c
  let left := if first then spaced else Text.dropStart (· = .scalar ' ') spaced
  if last then left else Text.dropEnd (· = .scalar ' ') left

/-- The position of the last filled line, if there is one. -/
def lastFilled? (ls : List Text) : Option Nat :=
  ((List.range ls.length).reverse).find? fun i => (ls[i]?).any isFilled

/-- **Text between tags**: lines are trimmed and those that are left are put together, with a space
after each but the last filled one. -/
def cleanText (t : Text) : Text :=
  let ls := lines t
  (ls.zipIdx).flatMap fun (line, i) =>
    let trimmed := trimLine line (i == 0) (i + 1 == ls.length)
    if trimmed.isEmpty then []
    else if lastFilled? ls == some i then trimmed
    else trimmed ++ [.scalar ' ']

/-! ### Arguments of the factory -/

/-- Whether a key may be written without quotes. -/
def isPlainKey (key : Text) : Bool :=
  match key with
  | [] => false
  | c :: cs =>
    c.satisfies (fun d => d.isAlpha || d == '_' || d == '$')
      && cs.all (·.satisfies fun d => isWordChar d || d == '$')

/-- The **tag** of an element: its name, in quotes if it stands for an element of its own kind and
not for a value of the script. -/
def markupTag (tree : SourceTree) (names : MarkupNames) (name : Option Node) :
    Except Failure Text :=
  match name with
  | none => .ok names.fragment
  | some node => do
    let text ← tree.nodeText node
    let isSmall := text.head?.any (·.satisfies isSmallLetter)
    let dashed := text.contains (.scalar '-')
    if node.kind == "jsx_namespace_name" || (node.kind == "identifier" && (isSmall || dashed)) then
      return stringLiteral text
    else return text

/-- The value of an attribute that has one. -/
def attributeValue (tree : SourceTree) (edits : EditSet) (value : Node) : Except Failure Text :=
  if value.kind == "string" then do
    let text ← tree.nodeText value
    return JsonString.quote false (Entity.decode ((text.drop 1).dropLast))
  else if value.kind == "jsx_expression" then
    match value.parts.head? with
    | some inner => tree.rendered edits inner
    | none => .ok "undefined"
  else tree.rendered edits value

/-- An attribute as a property of the object of attributes; braces with nothing in them give
none. -/
def markupProp (tree : SourceTree) (edits : EditSet) (entry : Node) :
    Except Failure (Option Text) :=
  if entry.kind == "jsx_expression" then
    match entry.parts.head? with
    | some inner => do return some (← tree.rendered edits inner)
    | none => .ok none
  else
    match entry.parts with
    | [] => .ok none
    | key :: rest => do
      let text ← tree.nodeText key
      let written := if isPlainKey text then text else stringLiteral text
      let value ← match rest.head? with
        | some value => attributeValue tree edits value
        | none => .ok "true"
      return some (written ++ (": " : Text) ++ value)

/-- The **attributes** of an element as an object. -/
def markupProps (tree : SourceTree) (edits : EditSet) (attributes : List Node) :
    Except Failure Text :=
  if attributes.isEmpty then .ok "null"
  else do
    let props ← attributes.mapM (markupProp tree edits)
    return ("\x7b" : Text) ++ Text.join ", " (props.filterMap id) ++ ("\x7d" : Text)

/-- A run of text among children, as an argument; trimmed to nothing, it gives none. -/
def textArgument (tree : SourceTree) (start stop : Nat) : Except Failure (List Text) := do
  let cleaned := cleanText (← tree.rangeText start stop)
  return if cleaned.isEmpty then [] else [JsonString.quote false (Entity.decode cleaned)]

/-- A child other than text, as an argument; braces with nothing in them give none. -/
def childArgument (tree : SourceTree) (edits : EditSet) (child : Node) :
    Except Failure (List Text) :=
  if child.kind == "jsx_expression" then
    match child.parts.head? with
    | some inner => do return [← tree.rendered edits inner]
    | none => .ok []
  else do return [← tree.rendered edits child]

/-- The arguments for children from a place on to where the closing tag starts. -/
def argumentsFrom (tree : SourceTree) (edits : EditSet) (stop cursor : Nat) :
    List Node → Except Failure (List Text)
  | [] => textArgument tree cursor stop
  | child :: rest => do
    let before ← textArgument tree cursor child.start
    let argument ← childArgument tree edits child
    let after ← argumentsFrom tree edits stop child.stop rest
    return before ++ argument ++ after

/-- Whether a node between two tags is a child other than text. -/
def isMarkupChild (opening closing child : Node) : Bool :=
  opening.stop ≤ child.start && child.stop ≤ closing.start
    && (child.kind == "jsx_expression" || elementKinds.contains child.kind)

/-- The **children** of an element as arguments. -/
def markupChildren (tree : SourceTree) (edits : EditSet) (node opening closing : Node) :
    Except Failure (List Text) :=
  argumentsFrom tree edits closing.start opening.stop
    (node.children.filter (isMarkupChild opening closing))

/-! ### Elements -/

/-- The call of the factory for an element. -/
def factoryCall (tree : SourceTree) (edits : EditSet) (names : MarkupNames) (node : Node) :
    Except Failure Text := do
  let opening := (node.child? .openTag).getD node
  let tag ← markupTag tree names (opening.child? .name)
  let props ← markupProps tree edits (opening.childrenWith .attribute)
  let children ← match node.child? .closeTag with
    | some closing => markupChildren tree edits node opening closing
    | none => .ok []
  return names.factory ++ ("(" : Text) ++ Text.join ", " (tag :: props :: children)
    ++ (")" : Text)

/-- An **element compiled**, with the line feeds that the call lacks added at its end. -/
def compileElement (tree : SourceTree) (edits : EditSet) (names : MarkupNames) (node : Node) :
    Except Failure Text := do
  let call ← factoryCall tree edits names node
  let source ← tree.nodeText node
  let missing := source.occurrences (.scalar '\n') - call.occurrences (.scalar '\n')
  return call ++ List.replicate missing (.scalar '\n')

end Transform

end ScriptTree
