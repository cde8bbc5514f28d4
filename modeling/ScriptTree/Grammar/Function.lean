import ScriptTree.Grammar.Pattern

/-!
# Functions and methods

Functions written with the word `function`, arrow functions, and the methods of objects.
-/

namespace ScriptTree.Grammar

open Rule

variable (g : Grammar)

def functionBody : Rule := field .body (g.read .block)

/-- The words that start a function, with the mark of a generator if `generator`. -/
def functionHead (generator : Bool) : Rule :=
  seq [opt (seq [word "async", sameLine]), word "function",
    if generator then mark "*" else pure []]

/-- A function that is a **statement** and has a name. -/
def functionDeclaration : Rule :=
  let rest := seq [field .name identifier, g.callSignature, g.functionBody]
  alt
    [node "generator_function_declaration" (seq [functionHead true, rest]),
      node "function_declaration" (seq [functionHead false, rest])]

/-- A function without a body, which only states how it may be called. -/
def functionSignature : Rule :=
  node "function_signature" (seq
    [functionHead false, field .name identifier, g.callSignature, signatureEnd g.dialect])

/-- A function that is an **expression**. -/
def functionExpression : Rule :=
  let rest := seq [opt (field .name identifier), g.callSignature, g.functionBody]
  alt
    [node "generator_function" (seq [functionHead true, rest]),
      node "function_expression" (seq [functionHead false, rest])]

/-- The body of an arrow function: a block or an expression. -/
def arrowBody (bare : Bool) : Rule :=
  field .body (do
    if (← upcoming).head? = some '\x7b' then alt [g.read .block, g.read (.expression bare)]
    else g.read (.expression bare))

/-- What stands before the arrow: a name, or parameters. A bare arrow function does not state the
type that it returns. -/
def arrowHead (bare : Bool) : Rule :=
  alt
    [identifier,
      seq [g.optTyped g.typeParameters, field .parameters (g.read .parameters),
        if bare then pure [] else g.optTyped g.returnAnnotation]]

/-- A function with an **arrow**. -/
def arrowFunction (bare : Bool) : Rule :=
  node "arrow_function" (alt
    [seq [word "async", sameLine, g.arrowHead bare, mark "=>", g.arrowBody bare],
      seq [g.arrowHead bare, mark "=>", g.arrowBody bare]])

/-- The words before the name of a method: it may be asynchronous, a generator, or give or take the
value of a property. -/
def methodWords : Rule :=
  seq [opt (seq [word "async", sameLine, beforeName]),
    opt (alt [modifier "get", modifier "set", mark "*"])]

/-- A **method** in an object literal. -/
def objectMethod : Rule :=
  node "method_definition" (seq
    [methodWords, field .name g.propertyName, opt (g.whenTyped (mark "?")), g.callSignature,
      g.functionBody])

end ScriptTree.Grammar
