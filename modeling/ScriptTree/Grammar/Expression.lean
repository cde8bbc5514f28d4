import ScriptTree.Grammar.Class
import ScriptTree.Grammar.Markup

/-!
# Expressions

Expressions from the strongest to the weakest: operands, operands with properties and calls after
them, prefixed operands, operands joined by operators, conditions, assignments, and lists with
commas.
-/

namespace ScriptTree.Grammar

open Rule

variable (g : Grammar)

/-! ### Operands -/

def objectEntry : Rule :=
  alt
    [g.spread, g.objectMethod, node "pair" (seq [g.propertyName, mark ":", field .value g.expression]),
      name "shorthand_property_identifier"]

def objectLiteral : Rule :=
  node "object" (seq [mark "\x7b", commaSeparated g.objectEntry, mark "\x7d"])

def arrayLiteral : Rule :=
  node "array" (seq [mark "[", commaSeparated (alt [g.spread, g.expression]), mark "]"])

def templateString : Rule :=
  template "template_string" "template_substitution" (g.read .expressions)

/-- What starts with an angle bracket: an element, an arrow function with type parameters, or an
operand with a type put before it. -/
def angleOperand (bare : Bool) : Rule :=
  match g.dialect with
  | .plain => g.read .element
  | .typed =>
    alt [g.arrowFunction bare,
      node "type_assertion" (seq [g.typeArguments, g.read (.unary bare)])]
  | .typedMarkup => alt [g.arrowFunction bare, g.read .element]

/-- A step from a constructor's name to one of its properties. -/
def constructorStep (before : List Node) : Rule :=
  alt
    [memberStep before,
      extend "subscript_expression" (before.map (·.inRole .object))
        (seq [mark "[", g.read .expressions, mark "]"]),
      g.whenTyped (extend "non_null_expression" before (seq [sameLine, mark "!"]))]

def newExpression : Rule :=
  alt
    [node "meta_property" (seq [word "new", mark ".", word "target"]),
      node "new_expression" (seq
        [word "new", chain (g.read (.operand true)) g.constructorStep,
          g.optTyped g.typeArguments, opt (field .arguments g.arguments)])]

def wordOperand (bare : Bool) : Rule := do
  match ← peekWord with
  | "function" => g.functionExpression
  | "class" => g.classExpression
  | "new" => g.newExpression
  | "this" => leafWord "this" "this"
  | "super" => leafWord "super" "super"
  | "null" => leafWord "null" "null"
  | "true" => leafWord "true" "true"
  | "false" => leafWord "false" "false"
  | "import" => seq [leafWord "import" "import", ahead (alt [mark "(", mark "."])]
  | "undefined" => alt [g.arrowFunction bare, leafWord "undefined" "undefined"]
  | "async" => alt [g.arrowFunction bare, g.functionExpression, identifier]
  | _ => alt [g.arrowFunction bare, identifier]

def operand (bare : Bool) : Rule := do
  match (← upcoming).head? with
  | none => failure
  | some '.' => number
  | some '"' => string
  | some '\'' => string
  | some '\x60' => g.templateString
  | some '/' => regex
  | some '(' => alt [g.arrowFunction bare, g.parenthesized]
  | some '[' => g.arrayLiteral
  | some '\x7b' => g.objectLiteral
  | some '<' => g.angleOperand bare
  | some '@' => g.classExpression
  | some '#' => seq [privateName, ahead (word "in")]
  | some c => if c.isDigit then number else g.wordOperand bare

/-! ### Properties and calls -/

/-- The mark of an optional chain as a node. -/
def chainMark : Rule := do
  if Lexeme.startsChain (← upcoming) then
    gap
    take "optional_chain" true 2
  else failure

def indexStep (before : List Node) (mark? : Rule) : Rule :=
  extend "subscript_expression" (before.map (·.inRole .object))
    (seq [mark?, mark "[", g.read .expressions, mark "]"])

/-- A property, index or call that is passed over when there is no object. -/
def optionalStep (before : List Node) : Rule :=
  alt
    [extend "call_expression" (before.map (·.inRole .function))
      (seq [chainMark, g.optTyped g.typeArguments, field .arguments g.arguments]),
      g.indexStep before chainMark,
      extend "member_expression" (before.map (·.inRole .object))
        (seq [chainMark, field .property (alt [privateName, anyName "property_identifier"])])]

/-- A call with a template as its argument. -/
def templateStep (before : List Node) : Rule :=
  extend "call_expression" (before.map (·.inRole .function))
    (field .arguments g.templateString)

/-- Words that may follow type arguments which belong to no call. -/
def wordsAfterTypeArguments : List String := ["as", "satisfies", "in", "instanceof"]

/-- Whether type arguments without a call may end here: no expression goes on on the same line. -/
def afterTypeArguments : Rule := do
  let cs ← upcoming
  let w ← peekWord
  let closes : List Char := [')', ']', '\x7d', ',', ';', ':', '.', '?', '=', '&', '|', '^', '*', '%']
  guard ((← get).endsLineBefore || cs.isEmpty || cs.head?.any closes.contains
    || "!=".toList.isPrefixOf cs || wordsAfterTypeArguments.contains w)

/-- Type arguments after a value: of a call, or by themselves. -/
def genericStep (before : List Node) : Rule :=
  alt
    [extend "call_expression" (before.map (·.inRole .function))
      (seq [g.typeArguments, field .arguments g.arguments]),
      extend "call_expression" (before.map (·.inRole .function))
        (seq [g.typeArguments, field .arguments g.templateString]),
      extend "instantiation_expression" before (seq [g.typeArguments, afterTypeArguments])]

/-- One **step** from an operand to its property, to an item, or to the result of a call. -/
def postfixStep (before : List Node) : Rule := do
  match (← upcoming).head? with
  | some '.' => memberStep before
  | some '?' => g.optionalStep before
  | some '[' => g.indexStep before (pure [])
  | some '(' =>
    extend "call_expression" (before.map (·.inRole .function)) (field .arguments g.arguments)
  | some '\x60' => g.templateStep before
  | some '!' => g.whenTyped (extend "non_null_expression" before (seq [sameLine, mark "!"]))
  | some '<' => g.whenTyped (g.genericStep before)
  | _ => failure

/-- An operand with all that follows it, and perhaps a count up or down. -/
def postfixed (bare : Bool) : Rule := do
  let nodes ← chain (g.read (.operand bare)) g.postfixStep
  alt
    [extend "update_expression" nodes (seq [sameLine, alt [mark "++", mark "--"]]), pure nodes]

/-! ### Operators -/

/-- A value with an operator before it. -/
def prefixed (kind : String) (operator : Rule) (bare : Bool) : Rule :=
  node kind (seq [operator, g.read (.unary bare)])

/-- A name that takes a value which is given back at the end of the block. -/
def usingAssignment (bare : Bool) : Rule :=
  node "assignment_expression" (seq
    [word "using", sameLine, identifier, mark "=", g.read (.expression bare)])

def awaited (bare : Bool) : Rule :=
  alt [node "await_expression" (seq [word "await", sameLine, g.usingAssignment bare]),
    g.prefixed "await_expression" (word "await") bare]

/-- A value with **operators before** it. -/
def unary (bare : Bool) : Rule := do
  match ← peekWord with
  | "typeof" => g.prefixed "unary_expression" (word "typeof") bare
  | "void" => g.prefixed "unary_expression" (word "void") bare
  | "delete" => g.prefixed "unary_expression" (word "delete") bare
  | "await" => alt [g.awaited bare, g.postfixed bare]
  | "" =>
    match Lexeme.punctuator (← upcoming) with
    | "!" => g.prefixed "unary_expression" (mark "!") bare
    | "~" => g.prefixed "unary_expression" (mark "~") bare
    | "-" => g.prefixed "unary_expression" (mark "-") bare
    | "+" => g.prefixed "unary_expression" (mark "+") bare
    | "++" => g.prefixed "update_expression" (mark "++") bare
    | "--" => g.prefixed "update_expression" (mark "--") bare
    | _ => g.postfixed bare
  | _ => g.postfixed bare

/-- The strength of an operator between values. -/
def strength? : String → Option Nat
  | "??" => some 1
  | "||" => some 2
  | "&&" => some 3
  | "|" => some 4
  | "^" => some 5
  | "&" => some 6
  | "==" | "!=" | "===" | "!==" => some 7
  | "<" | ">" | "<=" | ">=" | "in" | "instanceof" | "as" | "satisfies" => some 8
  | "<<" | ">>" | ">>>" => some 9
  | "+" | "-" => some 10
  | "*" | "/" | "%" => some 11
  | "**" => some 12
  | _ => none

/-- The type that is put after a value; brackets on the next line still belong to it. -/
def castType : Rule :=
  chain (g.read .type) fun before =>
    extend "lookup_type" before (seq [mark "[", g.read .type, mark "]"])

/-- A value with a type put after it. -/
def castStep (before : List Node) (w : String) : Rule :=
  if w == "as" then
    extend "as_expression" before
      (seq [sameLine, word "as", alt [seq [word "const", notAhead (mark "[")], g.castType]])
  else extend "satisfies_expression" before (seq [sameLine, word "satisfies", g.castType])

/-- Whether a type is put after the value that was read last. -/
def isCast (nodes : List Node) : Bool :=
  nodes.any fun n => ["as_expression", "satisfies_expression"].contains n.kind

/-- A call of, or an index into, a value with a type put after it. -/
def afterCast (before : List Node) : Rule := do
  if isCast before && [some '(', some '['].contains (← upcoming).head? then
    chain (g.postfixStep before) g.postfixStep
  else failure

/-- One more operator, if it is at least as strong as `level`, and what it joins. -/
def binaryStep (bare : Bool) (level : Nat) (before : List Node) : Rule := do
  let w ← peekWord
  let cs ← upcoming
  let operator := if w.isEmpty then Lexeme.punctuator cs else w
  match strength? operator with
  | none => failure
  | some s =>
    if s < level then failure
    else if operator == "as" || operator == "satisfies" then
      g.whenTyped (g.castStep before operator)
    else
      let token := if w.isEmpty then mark operator else word operator
      let next := if operator == "**" then s else s + 1
      extend "binary_expression" before (seq [token, g.read (.binary bare next)])

/-- Values with **operators between** them that are at least as strong as `level`. -/
def binary (bare : Bool) (level : Nat) : Rule :=
  chain (g.read (.unary bare)) fun before =>
    alt [g.binaryStep bare level before, g.afterCast before]

/-! ### Conditions and assignments -/

/-- The two values of a condition. In a typed script a colon after parentheses could also state what
an arrow function returns: that reading is tried first. -/
def conditionStep (bare : Bool) (before : List Node) : Rule := do
  let first := fun bare => seq [g.read (.expression bare), mark ":"]
  extend "ternary_expression" before (seq
    [mark "?", if g.typed then alt [first false, first true] else first false,
      g.read (.expression bare)])

/-- Operators that compute and assign. -/
def compoundOperators : List String :=
  ["+=", "-=", "*=", "/=", "%=", "^=", "&=", "|=", ">>=", ">>>=", "<<=", "**=", "&&=", "||=", "??="]

/-- The kinds of expressions that stand for places. -/
def placeKinds : List String :=
  ["identifier", "member_expression", "subscript_expression", "parenthesized_expression",
    "non_null_expression", "undefined"]

/-- An assignment to what was read before. -/
def assignStep (bare : Bool) (before : List Node) (operator : String) : Rule :=
  if before.all fun n => placeKinds.contains n.kind then
    if operator == "=" then
      extend "assignment_expression" before (seq [mark "=", g.read (.expression bare)])
    else
      extend "augmented_assignment_expression" before
        (seq [mark operator, g.read (.expression bare)])
  else failure

/-- An assignment to the places of a pattern. -/
def destructuring (bare : Bool) : Rule :=
  node "assignment_expression" (seq [g.read .target, mark "=", g.read (.expression bare)])

/-- A value handed out by a generator. -/
def yieldExpression (bare : Bool) : Rule :=
  node "yield_expression" (seq
    [word "yield",
      alt [seq [mark "*", g.read (.expression bare)],
        seq [sameLine, g.read (.expression bare)], pure []]])

/-- Operands with operators, a condition, or an assignment. -/
def conditional (bare : Bool) : Rule := do
  let left ← g.read (.binary bare 1)
  let operator := Lexeme.punctuator (← upcoming)
  if operator == "?" then alt [g.conditionStep bare left, pure left]
  else if operator == "=" || compoundOperators.contains operator then
    alt [g.assignStep bare left operator, pure left]
  else return left

def assignment (bare : Bool) : Rule := do
  match (← upcoming).head? with
  | some '[' => alt [g.destructuring bare, g.conditional bare]
  | some '\x7b' => alt [g.destructuring bare, g.conditional bare]
  | _ =>
    match ← peekWord with
    | "yield" => alt [g.yieldExpression bare, g.conditional bare]
    | "using" => alt [g.usingAssignment bare, g.conditional bare]
    | _ => g.conditional bare

/-- One expression, or **several** with commas between them. -/
def expressions : Rule := do
  let first ← g.expression
  if Lexeme.punctuator (← upcoming) == "," then
    alt
      [do
        let more ← seq [mark ",", separated (mark ",") g.expression]
        extend "sequence_expression" first (pure more), pure first]
  else return first

end ScriptTree.Grammar
