import ScriptTree.Grammar.Function
import ScriptTree.Grammar.Type

/-!
# Classes

Classes with their heritage and members. Typed scripts add modifiers, types, members without a body
and index signatures.
-/

namespace ScriptTree.Grammar

open Rule

variable (g : Grammar)

/-! ### Members -/

/-- A word or node before the name of a member of a typed class, on the same line as the name. -/
def classModifier : Rule :=
  seq
    [alt
      [accessibility, leafWord "override_modifier" "override",
        oneWord ["static", "readonly", "abstract", "declare", "accessor"]],
      sameLine, beforeName]

/-- What ends a member that has no body. -/
def fieldEnd (goesOn : Bool) : Rule := alt [mark ",", g.semicolon goesOn]

/-- A method of a typed class, after its decorators: with a body, or only its signature. -/
def typedMethod : Rule := do
  gap
  let start ← offset
  let modifiers ← many classModifier
  let front ← seq [methodWords, field .name g.propertyName, opt (mark "?"), g.callSignature]
  let body ← opt g.functionBody
  let stop ← offset
  let children := modifiers ++ front ++ body
  if !body.isEmpty then
    return [⟨"method_definition", true, false, none, start, stop, children⟩]
  else
    let kind :=
      if modifiers.any (·.kind == "abstract") then "abstract_method_signature"
      else "method_signature"
    let ending ← alt [mark ",", signatureEnd g.dialect]
    return ⟨kind, true, false, none, start, stop, children⟩ :: ending

/-- A property of a typed class with its decorators. -/
def typedField : Rule := do
  let declared ← node "public_field_definition" (seq
    [many g.decorator, many classModifier, field .name g.propertyName,
      opt (alt [mark "?", mark "!"]), opt g.typeAnnotation, opt g.initializer])
  let hasValue := declared.any fun n => n.hasToken ["="]
  let ending ← g.fieldEnd hasValue
  return declared ++ ending

/-- A member of a plain class: a method or a property. -/
def plainMember : Rule :=
  alt
    [node "method_definition" (seq
      [many g.decorator, opt (modifier "static"), methodWords, field .name g.propertyName,
        g.callSignature, g.functionBody]),
      do
        let declared ← node "field_definition" (seq
          [many g.decorator, opt (modifier "static"), opt (modifier "accessor"),
            field .property g.propertyName, opt g.initializer])
        let hasValue := declared.any fun n => n.hasToken ["="]
        let ending ← g.semicolon hasValue
        return declared ++ ending]

/-- A block that runs when the class is made. -/
def staticBlock : Rule := node "class_static_block" (seq [word "static", g.functionBody])

def classMember : Rule :=
  if g.typed then
    alt
      [g.staticBlock, seq [g.indexSignature, g.fieldEnd false],
        seq [many g.decorator, g.typedMethod], g.typedField]
  else alt [g.staticBlock, g.plainMember]

def classBody : Rule :=
  node "class_body" (seq [mark "\x7b", many (alt [mark ";", g.classMember]), mark "\x7d"])

/-! ### Heritage -/

/-- A class that another one extends, with type arguments. -/
def extended : Rule :=
  seq [field .value (g.read (.unary false)), g.optTyped g.typeArguments]

def implementsClause : Rule :=
  node "implements_clause" (seq [word "implements", separated (mark ",") (g.read .type)])

/-- What a class extends and implements. -/
def heritage : Rule :=
  if g.typed then
    node "class_heritage" (alt
      [seq [node "extends_clause" (seq [word "extends", separated (mark ",") g.extended]),
        opt g.implementsClause], g.implementsClause])
  else node "class_heritage" (seq [word "extends", g.read (.unary false)])

def className : Rule :=
  if g.typed then seq [notAhead (word "implements"), typeName] else identifier

/-- What follows the name of a class. -/
def classRest : Rule :=
  seq [g.optTyped g.typeParameters, opt g.heritage, field .body g.classBody]

/-! ### Classes -/

def classExpression : Rule :=
  node "class"
    (seq [many g.decorator, word "class", opt (field .name g.className), g.classRest])

/-- A class that is a **statement** and has a name. -/
def classDeclaration : Rule :=
  node "class_declaration"
    (seq [many g.decorator, word "class", field .name g.className, g.classRest])

/-- A class of which no objects are made. -/
def abstractClass : Rule :=
  node "abstract_class_declaration" (seq
    [many g.decorator, word "abstract", word "class", field .name g.className, g.classRest])

end ScriptTree.Grammar
