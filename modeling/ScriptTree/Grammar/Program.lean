import ScriptTree.Grammar.Statement
import ScriptTree.Tree.Fault

/-!
# Programs

The knot of the grammar is tied here: a goal is read by the rule of its construct, which reads the
goals below it with one less unit of **depth**. A program is a list of statements; text that belongs
to no statement becomes an error node, piece by piece, so that reading never fails. Comments are put
into the tree at the end, each as a child of the smallest node around it.
-/

namespace ScriptTree

open Rule

def Grammar.step (g : Grammar) : Goal → Rule
  | .statement => g.statement
  | .block => g.block
  | .expressions => g.expressions
  | .expression bare => g.assignment bare
  | .binary bare level => g.binary bare level
  | .unary bare => g.unary bare
  | .operand bare => g.operand bare
  | .pattern => g.pattern
  | .target => g.target
  | .parameters => g.parameters
  | .type => g.type
  | .unionType => g.unionType
  | .typeOperand => g.typeOperand
  | .element => g.element

/-- Reads a goal with constructs nested at most `depth` deep. -/
def readGoal (d : Dialect) : Nat → Goal → Rule
  | 0, _ => failure
  | depth + 1, goal => Grammar.step ⟨d, readGoal d depth⟩ goal

/-- The depth that is always enough for a text of some length. -/
def depthFor (length : Nat) : Nat := 32 * (length + 2)

/-! ### Statements and errors -/

/-- The number of characters of the piece that an error node takes. -/
def pieceLength (cs : List Char) : Nat :=
  let name := Lexeme.identifier cs
  let number := Lexeme.number cs
  if name ≠ 0 then name
  else if number ≠ 0 then number
  else match Lexeme.string? cs with
    | some n => n
    | none => 1

/-- The line at the start of a script that names its interpreter. -/
def interpreterLine : Rule := do
  let cs ← immediate
  if "#!".toList.isPrefixOf cs then
    take "hash_bang_line" true (cs.takeWhile (· != '\n')).length
  else failure

/-- The statements from here to the end; what is no statement becomes error nodes. -/
def readStatements (statement : Rule) : Nat → Rule
  | 0 => pure []
  | fuel + 1 => do
    gap
    if (← immediate).isEmpty then return []
    let start ← offset
    match statement (← get) with
    | some (nodes, c) =>
      if start < c.offset then
        set c
        return nodes ++ (← readStatements statement fuel)
      else
        let piece ← take Node.errorKind true (pieceLength (← immediate))
        return piece ++ (← readStatements statement fuel)
    | none =>
      let piece ← take Node.errorKind true (pieceLength (← immediate))
      return piece ++ (← readStatements statement fuel)

/-! ### Comments -/

mutual

/-- A node with the comments inside it put among its children, and the place where it ends. -/
def attachComments (c : Cursor) : Node → Node
  | ⟨kind, named, missing, role, start, stop, children⟩ =>
    if children.isEmpty then ⟨kind, named, missing, role, start, stop, children⟩
    else
      let c := c.goTo start
      ⟨kind, named, missing, role, start, stop, attachBetween c stop children⟩

/-- Nodes with the comments between them, and after them up to a byte, put in. -/
def attachBetween (c : Cursor) (stop : Nat) : List Node → List Node
  | [] => c.commentsUntil stop
  | n :: ns =>
    c.commentsUntil n.start ++ attachComments c n :: attachBetween (c.goTo n.stop) stop ns

end

/-! ### Reading -/

/-- Any text as the **tree** of a program. -/
def readProgram (d : Dialect) (cs : List Char) : Node :=
  let c := Cursor.ofChars cs
  let statement := readGoal d (depthFor cs.length) .statement
  let rule := seq [opt interpreterLine, readStatements statement (cs.length + 1)]
  let statements := ((rule c).map (·.1)).getD []
  ⟨"program", true, false, none, 0, c.limit, attachBetween c c.limit statements⟩

/-- Reads a script; what cannot be read stands in the tree as error nodes. -/
def SourceTree.read (d : Dialect) (cs : List Char) : SourceTree :=
  ⟨Utf8.encodeChars cs, readProgram d cs⟩

/-- Reads a script that must be **well formed**; otherwise gives the tree and its first fault. -/
def SourceTree.readStrict (d : Dialect) (cs : List Char) :
    Except (SourceTree × Node) SourceTree :=
  let tree := SourceTree.read d cs
  match tree.root.firstFault? with
  | some fault => .error (tree, fault)
  | none => .ok tree

end ScriptTree
