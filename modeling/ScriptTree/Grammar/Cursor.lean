import ScriptTree.Grammar.Lexeme
import ScriptTree.Tree.Node

/-!
# Cursors

A **cursor** is a place in a script: the characters that are still to be read and the byte at which
they start. Blanks and comments between tokens are passed over by `Cursor.skipGap`.
-/

namespace ScriptTree

/-- The **dialects** of scripts: plain scripts with markup, typed scripts, and typed scripts with
markup. -/
inductive Dialect where
  | plain
  | typed
  | typedMarkup
  deriving DecidableEq, Repr

namespace Dialect

def hasTypes (d : Dialect) : Bool := d != .plain

def hasMarkup (d : Dialect) : Bool := d != .typed

end Dialect

/-- A place in a script: the rest of its characters, the byte at which they start, and the length of
the whole script in bytes. -/
structure Cursor where
  rest : List Char
  offset : Nat
  limit : Nat

namespace Cursor

/-- The place at the start of a script. -/
def ofChars (cs : List Char) : Cursor := ⟨cs, 0, Utf8.size cs⟩

/-- A bound on the number of steps that reading from here can take. -/
def stepsLeft (c : Cursor) : Nat := c.limit - c.offset + 1

/-- The place `n` characters further on. -/
def advance (c : Cursor) (n : Nat) : Cursor :=
  { c with rest := c.rest.drop n, offset := c.offset + Utf8.size (c.rest.take n) }

/-- The number of characters of the line comment at the start, without its line end. -/
def lineCommentLength (cs : List Char) : Nat :=
  (cs.takeWhile fun c => !(c == '\r' || endsLine c)).length

/-- The number of characters up to and with the end of a block comment. -/
def blockCommentLength? : List Char → Option Nat
  | [] => none
  | '*' :: '/' :: _ => some 2
  | _ :: cs => (blockCommentLength? cs).map (· + 1)

/-- The number of characters of the comment at the start, if there is one. -/
def commentLength? : List Char → Option Nat
  | '/' :: '/' :: cs => some (2 + lineCommentLength cs)
  | '/' :: '*' :: cs => (blockCommentLength? cs).map (2 + ·)
  | _ => none

/-- The place after the blanks that follow. -/
def skipBlanks (c : Cursor) : Cursor := c.advance (c.rest.takeWhile isBlank).length

/-- The place after at most `fuel` comments and the blanks around them. -/
def skipGapFrom : Nat → Cursor → Cursor
  | 0, c => c
  | fuel + 1, c =>
    let c := c.skipBlanks
    match commentLength? c.rest with
    | some n => skipGapFrom fuel (c.advance n)
    | none => c

/-- The place of the **next token**. -/
def skipGap (c : Cursor) : Cursor := skipGapFrom c.stepsLeft c

/-- Whether a line ends among characters, the first of which stands at `offset`, before the byte
`stop`. -/
def endsLineWithin (stop offset : Nat) : List Char → Bool
  | [] => false
  | x :: xs => offset < stop && (endsLine x || endsLineWithin stop (offset + x.utf8Size) xs)

/-- Whether a line ends between this place and the next token. -/
def endsLineBefore (c : Cursor) : Bool := endsLineWithin c.skipGap.offset c.offset c.rest

/-- The comments from here up to a byte, as nodes; at most `fuel` of them. -/
def commentsUntilFrom (stop : Nat) : Nat → Cursor → List Node
  | 0, _ => []
  | fuel + 1, c =>
    let c := c.skipBlanks
    if stop ≤ c.offset then []
    else match commentLength? c.rest with
      | some n =>
        let after := c.advance n
        ⟨Node.commentKind, true, false, none, c.offset, after.offset, []⟩
          :: commentsUntilFrom stop fuel after
      | none => []

/-- The **comments** from here up to a byte. -/
def commentsUntil (stop : Nat) (c : Cursor) : List Node := commentsUntilFrom stop c.stepsLeft c

/-- The characters from here up to a byte, and the place there. -/
def goTo (stop : Nat) (c : Cursor) : Cursor := go c.rest c.offset
where
  /-- Drops characters until the byte is reached. -/
  go : List Char → Nat → Cursor
    | [], offset => ⟨[], offset, c.limit⟩
    | x :: xs, offset =>
      if stop ≤ offset then ⟨x :: xs, offset, c.limit⟩ else go xs (offset + x.utf8Size)

end Cursor

end ScriptTree
