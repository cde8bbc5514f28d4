import ScriptTree.Grammar.Terminator

/-!
# Goals

The grammar of scripts is recursive: a statement holds expressions, an expression functions, and a
function statements. Each module of the grammar describes one kind of construct and reaches the
others through **goals**; the knot is tied once, over the depth of the nesting.

An expression is *bare* when arrow functions in it may not state the type that they return, as
between the marks of a condition, where a colon means something else.
-/

namespace ScriptTree

/-- What can be asked for anywhere in the grammar. -/
inductive Goal where
  | statement
  | block
  | expressions
  | expression (bare : Bool)
  | binary (bare : Bool) (level : Nat)
  | unary (bare : Bool)
  | operand (bare : Bool)
  | pattern
  | target
  | parameters
  | type
  | unionType
  | typeOperand
  | element
  deriving DecidableEq, Repr

/-- A dialect and the way to read each goal. -/
structure Grammar where
  dialect : Dialect
  read : Goal → Rule

namespace Grammar

variable (g : Grammar)

def expression : Rule := g.read (.expression false)

def typed : Bool := g.dialect.hasTypes

/-- A rule of typed scripts only. -/
def whenTyped (r : Rule) : Rule := if g.typed then r else failure

/-- A rule of typed scripts that may be left out. -/
def optTyped (r : Rule) : Rule := if g.typed then Rule.opt r else pure []

/-- An initial value: an equals sign and an expression. -/
def initializer : Rule := Rule.seq [Rule.mark "=", Rule.field .value g.expression]

def semicolon (goesOn : Bool) : Rule := Rule.semicolon g.dialect goesOn

end Grammar

end ScriptTree
