import ScriptTree.Grammar.Exchange

/-!
# Statements

Blocks, conditions, loops, jumps, and expressions that stand by themselves.
-/

namespace ScriptTree.Grammar

open Rule

variable (g : Grammar)

/-- Statements between braces. -/
def block : Rule :=
  node "statement_block" (seq [mark "\x7b", many (g.read .statement), mark "\x7d"])

def expressionStatement : Rule :=
  node "expression_statement" (seq [g.read .expressions, g.semicolon true])

def emptyStatement : Rule := node "empty_statement" (mark ";")

/-! ### Conditions and loops -/

def ifStatement : Rule :=
  node "if_statement" (seq
    [word "if", g.parenthesized, g.read .statement,
      opt (node "else_clause" (seq [word "else", g.read .statement]))])

/-- The variable or place that takes the items of a loop. -/
def loopTarget : Rule :=
  alt [seq [oneWord ["var", "let", "const", "using"], g.read .pattern], g.read .target]

/-- A loop over items or names. -/
def forEach : Rule :=
  node "for_in_statement" (seq
    [word "for", opt (word "await"), mark "(", g.loopTarget, oneWord ["in", "of"],
      g.read .expressions, mark ")", g.read .statement])

/-- One of the first two parts of a loop that counts. -/
def loopPart : Rule :=
  alt [node "expression_statement" (seq [g.read .expressions, mark ";"]), emptyStatement]

def forStatement : Rule :=
  node "for_statement" (seq
    [word "for", mark "(", alt [g.oldVariables, g.blockVariables, g.loopPart], g.loopPart,
      opt (g.read .expressions), mark ")", g.read .statement])

def whileStatement : Rule :=
  node "while_statement" (seq [word "while", g.parenthesized, g.read .statement])

def doStatement : Rule :=
  node "do_statement" (seq
    [word "do", g.read .statement, word "while", g.parenthesized, opt (g.semicolon false)])

def switchCase : Rule :=
  alt
    [node "switch_case" (seq
      [word "case", field .value (g.read .expressions), mark ":", many (g.read .statement)]),
      node "switch_default" (seq [word "default", mark ":", many (g.read .statement)])]

def switchStatement : Rule :=
  node "switch_statement" (seq
    [word "switch", g.parenthesized,
      node "switch_body" (seq [mark "\x7b", many g.switchCase, mark "\x7d"])])

/-! ### Failures and jumps -/

def catchClause : Rule :=
  node "catch_clause" (seq
    [word "catch",
      opt (seq [mark "(", g.read .pattern, g.optTyped g.typeAnnotation, mark ")"]),
      field .body (g.read .block)])

def tryStatement : Rule :=
  node "try_statement" (seq
    [word "try", field .body (g.read .block), opt g.catchClause,
      opt (node "finally_clause" (seq [word "finally", field .body (g.read .block)]))])

/-- Statements that see the properties of an object as names. -/
def withStatement : Rule :=
  node "with_statement" (seq [word "with", g.parenthesized, g.read .statement])

/-- A jump to a label or to the end of what runs. -/
def jump (kind w : String) : Rule :=
  node kind (seq
    [word w,
      alt [g.semicolon false, seq [name "statement_identifier", g.semicolon false]]])

def returnStatement : Rule :=
  node "return_statement" (seq
    [word "return",
      alt [g.semicolon false, seq [g.read .expressions, g.semicolon true]]])

def throwStatement : Rule :=
  node "throw_statement" (seq [word "throw", g.read .expressions, g.semicolon true])

def debuggerStatement : Rule :=
  node "debugger_statement" (seq [word "debugger", g.semicolon false])

def labeledStatement : Rule :=
  node "labeled_statement" (seq
    [name "statement_identifier", mark ":", field .body (g.read .statement)])

/-! ### Any statement -/

/-- A statement that starts with a word of no fixed meaning: a declaration of typed scripts, a
label, or an expression. -/
def openStatement : Rule :=
  alt [g.whenTyped (alt [g.typedDeclaration, g.ambient]), g.labeledStatement,
    g.expressionStatement]

def wordStatement : Rule := do
  match ← peekWord with
  | "import" =>
    alt [g.importStatement, g.whenTyped g.importAlias, g.expressionStatement]
  | "export" => g.exportStatement
  | "var" => g.oldVariables
  | "let" => alt [g.blockVariables, g.openStatement]
  | "const" => alt [g.blockVariables, g.whenTyped g.enum]
  | "class" => g.classDeclaration
  | "function" => alt [g.functionDeclaration, g.whenTyped g.functionSignature]
  | "async" => alt [g.functionDeclaration, g.openStatement]
  | "if" => g.ifStatement
  | "for" => alt [g.forEach, g.forStatement]
  | "while" => g.whileStatement
  | "do" => g.doStatement
  | "switch" => g.switchStatement
  | "try" => g.tryStatement
  | "with" => g.withStatement
  | "break" => g.jump "break_statement" "break"
  | "continue" => g.jump "continue_statement" "continue"
  | "return" => g.returnStatement
  | "throw" => g.throwStatement
  | "debugger" => g.debuggerStatement
  | _ => g.openStatement

def statement : Rule := do
  match (← upcoming).head? with
  | none => failure
  | some ';' => emptyStatement
  | some '\x7b' => alt [g.read .block, g.expressionStatement]
  | some '@' =>
    alt [g.exportStatement, g.classDeclaration, g.whenTyped g.abstractClass,
      g.expressionStatement]
  | _ => g.wordStatement

end ScriptTree.Grammar
