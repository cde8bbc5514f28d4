import ScriptTree.Grammar.Goal

/-!
# Annotations, names of properties and type arguments

The parts that patterns, types, functions and classes share: annotations that state a type, lists of
type arguments and type parameters, call signatures, and the names of properties.
-/

namespace ScriptTree.Grammar

open Rule

variable (g : Grammar)

/-- The kinds of a type's own words that name no other type. -/
def predefinedTypes : List String :=
  ["any", "number", "boolean", "string", "symbol", "void", "unknown", "never", "object"]

def typeName : Rule := name "type_identifier"

def typeAnnotation : Rule := node "type_annotation" (seq [mark ":", g.read .type])

/-- A parameter, or the receiver, that a function says something about. -/
def subject : Rule := alt [leafWord "this" "this", identifier]

/-- A statement that a parameter is of some type. -/
def typePredicate : Rule :=
  node "type_predicate" (seq [field .name subject, sameLine, word "is", g.read .type])

/-- A statement that a function returns only if something holds. -/
def asserts : Rule :=
  node "asserts" (seq [word "asserts", sameLine, alt [g.typePredicate, subject]])

/-- What a function **returns**: a type, or what it says about a parameter. -/
def returnAnnotation : Rule :=
  alt [node "asserts_annotation" (seq [mark ":", g.asserts]),
    node "type_predicate_annotation" (seq [mark ":", g.typePredicate]),
    g.typeAnnotation]

/-- The type that a function type returns. -/
def returnType : Rule := alt [g.asserts, g.typePredicate, g.read .type]

def typeArguments : Rule :=
  node "type_arguments"
    (seq [bareMark "<", separated (mark ",") (g.read .type), opt (mark ","), bareMark ">"])

/-- A type parameter with its bound and its default. -/
def typeParameter : Rule :=
  node "type_parameter" (seq
    [opt (word "const"), opt (word "in"), opt (seq [word "out", ahead typeName]),
      field .name typeName,
      opt (node "constraint" (seq [word "extends", g.read .type])),
      opt (node "default_type" (seq [mark "=", g.read .type]))])

def typeParameters : Rule :=
  node "type_parameters"
    (seq [bareMark "<", separated (mark ",") g.typeParameter, opt (mark ","), bareMark ">"])

/-- The parameters of a function with, in typed scripts, type parameters and the type that is
returned. -/
def callSignature : Rule :=
  seq [g.optTyped g.typeParameters, field .parameters (g.read .parameters),
    g.optTyped g.returnAnnotation]

/-- A name in brackets that is computed. -/
def computedName : Rule :=
  node "computed_property_name" (seq [mark "[", g.expression, mark "]"])

def propertyName : Rule :=
  alt [anyName "property_identifier", privateName, string, number, g.computedName]

/-- Whether the name of a property, or the mark of a generator, comes next. -/
def beforeName : Rule :=
  ahead (alt [anyName "", privateName, string, number, mark "[", mark "*"])

/-- A word that says something about the member whose name follows. -/
def modifier (w : String) : Rule := seq [word w, beforeName]

/-- An access modifier of a member or parameter. -/
def accessibility : Rule := do
  let w ← peekWord
  if ["public", "private", "protected"].contains w then leafWord "accessibility_modifier" w
  else failure

end ScriptTree.Grammar
