import ScriptTree.Grammar.Annotation

/-!
# Patterns and parameters

A pattern says where the parts of a value go: to names that it declares (`Grammar.pattern`), or to
places that exist (`Grammar.target`). Parameters are patterns with, in typed scripts, modifiers,
types and default values.
-/

namespace ScriptTree.Grammar

open Rule

variable (g : Grammar)

/-! ### Arguments and decorators -/

/-- Items spread out in a list of others. -/
def spread : Rule := node "spread_element" (seq [mark "...", g.expression])

def arguments : Rule :=
  node "arguments" (seq [mark "(", commaSeparated (alt [g.spread, g.expression]), mark ")"])

/-- Expressions in parentheses; typed scripts allow an annotation there. -/
def parenthesized : Rule :=
  node "parenthesized_expression"
    (seq [mark "(", g.read .expressions, g.optTyped g.typeAnnotation, mark ")"])

/-- A property of what was read before. -/
def memberStep (before : List Node) : Rule :=
  extend "member_expression" (before.map (·.inRole .object))
    (seq [mark ".", field .property (alt [privateName, anyName "property_identifier"])])

/-- A call of what was read before. -/
def callStep (before : List Node) : Rule :=
  extend "call_expression" (before.map (·.inRole .function))
    (seq [g.optTyped g.typeArguments, field .arguments g.arguments])

/-- A **decorator**: a name with properties, perhaps called, or any expression in parentheses. -/
def decorator : Rule :=
  node "decorator" (seq
    [mark "@",
      alt [g.parenthesized,
        do
          let head ← chain identifier memberStep
          alt [g.callStep head, pure head]]])

/-! ### Patterns -/

/-- A place with a default value for it. -/
def withDefault (inner : Rule) : Rule := do
  let left ← inner
  alt [extend "assignment_pattern" left (seq [mark "=", g.expression]), pure left]

/-- What is left over, collected in a place. -/
def restPattern (inner : Rule) : Rule := node "rest_pattern" (seq [mark "...", inner])

def arrayPattern (inner : Rule) : Rule :=
  node "array_pattern"
    (seq [mark "[", commaSeparated (alt [restPattern inner, g.withDefault inner]), mark "]"])

/-- A property whose name is the place it goes to, perhaps with a default value. -/
def shorthandPattern : Rule := do
  let left ← name "shorthand_property_identifier_pattern"
  alt [extend "object_assignment_pattern" left (seq [mark "=", g.expression]), pure left]

def objectPattern (inner : Rule) : Rule :=
  node "object_pattern" (seq
    [mark "\x7b",
      commaSeparated (alt
        [node "pair_pattern" (seq [g.propertyName, mark ":", g.withDefault inner]),
          restPattern inner, g.shorthandPattern]),
      mark "\x7d"])

/-- A pattern that **declares** names. -/
def pattern : Rule := do
  match (← upcoming).head? with
  | some '[' => g.arrayPattern (g.read .pattern)
  | some '\x7b' => g.objectPattern (g.read .pattern)
  | some '.' => restPattern (g.read .pattern)
  | _ => identifier

/-- A step to a place inside another one. -/
def placeStep (before : List Node) : Rule :=
  alt
    [memberStep before,
      extend "subscript_expression" (before.map (·.inRole .object))
        (seq [mark "[", g.read .expressions, mark "]"]),
      g.whenTyped (extend "non_null_expression" before (seq [sameLine, mark "!"]))]

/-- A pattern that **assigns** to places that exist. -/
def target : Rule := do
  match (← upcoming).head? with
  | some '[' => g.arrayPattern (g.read .target)
  | some '\x7b' => g.objectPattern (g.read .target)
  | some '.' => restPattern (g.read .target)
  | _ => chain (alt [identifier, leafWord "this" "this", leafWord "super" "super"]) g.placeStep

/-! ### Parameters -/

/-- Whether the pattern of a parameter comes next. -/
def beforePattern : Rule := ahead (alt [anyName "", mark "\x7b", mark "[", mark "..."])

/-- Words before the pattern of a parameter. -/
def parameterModifiers : Rule :=
  seq [opt (seq [accessibility, beforePattern]),
    opt (seq [leafWord "override_modifier" "override", beforePattern]),
    opt (seq [word "readonly", beforePattern])]

def typedParameter : Rule := do
  gap
  let start ← offset
  let front ← seq
    [many g.decorator, parameterModifiers,
      field .pattern (alt [leafWord "this" "this", g.read .pattern])]
  let optionMark ← opt (mark "?")
  let back ← seq [opt g.typeAnnotation, opt g.initializer]
  let kind := if optionMark.isEmpty then "required_parameter" else "optional_parameter"
  return [⟨kind, true, false, none, start, ← offset, front ++ optionMark ++ back⟩]

def parameters : Rule :=
  let parameter := if g.typed then g.typedParameter else g.withDefault (g.read .pattern)
  node "formal_parameters" (seq [mark "(", commaList parameter, mark ")"])

end ScriptTree.Grammar
