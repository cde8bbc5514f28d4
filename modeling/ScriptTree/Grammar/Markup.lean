import ScriptTree.Grammar.Type

/-!
# Markup

Elements that stand among the expressions of a script: an opening tag with attributes, children and
a closing tag, or a tag that closes itself. Between tags, text stands as it is: only tags,
expressions in braces and character references interrupt it, and an ampersand that starts no
reference stands for itself.
-/

namespace ScriptTree.Grammar

open Rule

variable (g : Grammar)

/-- The length of a name in markup, which may hold dashes. -/
def dashedLength (cs : List Char) : Nat :=
  (cs.takeWhile fun c => Lexeme.isNameChar c || c == '-').length

/-- A name in markup as a node of some kind. -/
def dashedName (kind : String) : Rule := do
  let cs ← upcoming
  if Lexeme.identifier cs = 0 then failure
  else
    gap
    take kind true (max (Lexeme.identifier cs) (dashedLength cs))

/-- Two names with a colon between them. -/
def namespaceName : Rule :=
  node "jsx_namespace_name" (seq [dashedName "identifier", mark ":", dashedName "identifier"])

/-- The name of a property after an element name, with the dot before it. -/
def elementMember (before : List Node) : Rule :=
  extend "member_expression" (before.map (·.inRole .object))
    (seq [mark ".", field .property (anyName "property_identifier")])

/-- The **name in a tag**: a name, a name in a namespace, or a property. -/
def markupName : Rule := alt [namespaceName, chain (dashedName "identifier") elementMember]

/-- An expression in braces, which may be left out. -/
def markupExpression (inner : Rule) : Rule :=
  node "jsx_expression" (seq [mark "\x7b", opt inner, mark "\x7d"])

/-- Items spread out among attributes or children. -/
def markupSpread : Rule := node "spread_element" (seq [mark "...", g.expression])

def attributeValue : Rule :=
  alt
    [lexeme "string" Lexeme.markupString?,
      markupExpression (alt [g.markupSpread, g.read .expressions]), g.read .element]

/-- An **attribute**: a name with or without a value, or attributes spread out. -/
def markupAttribute : Rule :=
  field .attribute (alt
    [markupExpression g.markupSpread,
      node "jsx_attribute" (seq
        [alt [namespaceName, dashedName "property_identifier"],
          opt (seq [mark "=", g.attributeValue])])])

/-- The length of the text before the next tag, brace or reference. -/
def textLength (cs : List Char) : Nat :=
  (cs.takeWhile fun c => !(['<', '>', '\x7b', '\x7d', '&'].contains c)).length

/-- Whether text counts: it holds something other than blanks that follow a line end. -/
def countsAsText (afterLine : Bool) : List Char → Bool
  | [] => false
  | '\n' :: cs => countsAsText true cs
  | c :: cs => !(afterLine && isSeparator c) || countsAsText afterLine cs

/-- Text between tags; blanks around line ends are passed over. -/
def markupText : Rule := do
  let cs ← immediate
  let n := textLength cs
  if n = 0 then failure
  else if countsAsText false (cs.take n) then take "jsx_text" true n
  else
    modify (·.advance n)
    return []

def characterReference : Rule := do
  match Lexeme.characterReference? (← immediate) with
  | some n => take "html_character_reference" true n
  | none => failure

def markupChild : Rule := do
  match ← immediate with
  | '<' :: '/' :: _ => failure
  | '<' :: _ => g.read .element
  | '\x7b' :: _ => markupExpression (alt [g.markupSpread, g.read .expressions])
  | '&' :: _ => alt [characterReference, take "jsx_text" true 1]
  | _ => markupText

/-- What stands between the angle brackets of an opening tag. -/
def tagInside : Rule :=
  seq [field .name markupName, g.optTyped g.typeArguments, many g.markupAttribute]

def closingTag : Rule :=
  node "jsx_closing_element"
    (seq [bareMark "</", opt (field .name markupName), bareMark ">"])

/-- An **element**: a tag that closes itself, or two tags with children between them. -/
def element : Rule := do
  gap
  let start ← offset
  let front ← seq [bareMark "<", opt g.tagInside]
  let closesItself ← if front.length = 1 then pure [] else opt (bareMark "/>")
  if !closesItself.isEmpty then
    return [⟨"jsx_self_closing_element", true, false, none, start, ← offset,
      front ++ closesItself⟩]
  else
    let bracket ← bareMark ">"
    let opening : Node :=
      ⟨"jsx_opening_element", true, false, some .openTag, start, ← offset, front ++ bracket⟩
    let rest ← seq [many g.markupChild, field .closeTag closingTag]
    return [⟨"jsx_element", true, false, none, start, ← offset, opening :: rest⟩]

end ScriptTree.Grammar
