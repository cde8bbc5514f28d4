import ScriptTree.Text.CodePoint

/-!
# White space and line ends

Three sets of blank characters are in use and they differ. A *script* is cut into tokens at the
blanks of `isBlank`. *Values* (an environment variable, the end of a statement, a snippet of source)
are trimmed by `isSpace`. A *snippet* of source is cut at the line ends of `isLineEnd`, while a
script ends a line only at the characters of `endsLine`.
-/

namespace ScriptTree

/-- The blanks shared by every set: controls from tab to carriage return, and the space separators. -/
def isSeparator (c : Char) : Bool :=
  let n := c.toNat
  (9 ≤ n && n ≤ 13) || n == 0x20 || n == 0x85 || n == 0xA0 || n == 0x1680
    || (0x2000 ≤ n && n ≤ 0x200A) || n == 0x2028 || n == 0x2029 || n == 0x202F || n == 0x205F
    || n == 0x3000

/-- Blanks between the tokens of a script: the separators, the zero-width space, the word joiner and
the byte order mark. -/
def isBlank (c : Char) : Bool :=
  isSeparator c || c.toNat == 0x200B || c.toNat == 0x2060 || c.toNat == 0xFEFF

/-- Blanks that are trimmed from values: the separators and the four information separators. -/
def isSpace (c : Char) : Bool :=
  isSeparator c || (0x1C ≤ c.toNat && c.toNat ≤ 0x1F)

/-- Characters that end a line of a script, after which a semicolon may be left out. -/
def endsLine (c : Char) : Bool :=
  c == '\n' || c.toNat == 0x2028 || c.toNat == 0x2029

/-- Characters at which a snippet of source is cut into lines. -/
def isLineEnd (c : Char) : Bool :=
  let n := c.toNat
  (10 ≤ n && n ≤ 13) || (0x1C ≤ n && n ≤ 0x1E) || n == 0x85 || n == 0x2028 || n == 0x2029

namespace Text

/-- The text without the spaces at its start. -/
def stripStart (t : Text) : Text := t.dropStart (·.satisfies isSpace)

/-- The text without the spaces at its end. -/
def stripEnd (t : Text) : Text := t.dropEnd (·.satisfies isSpace)

/-- The text without the spaces at its two ends. -/
def strip (t : Text) : Text := t.stripStart.stripEnd

/-- Whether a text holds nothing but spaces. -/
def isAllSpace (t : Text) : Bool := t.all (·.satisfies isSpace)

/-- The part of a text before its first line end. -/
def firstLine (t : Text) : Text := t.takeWhile fun c => !c.satisfies isLineEnd

/-- The text with every line end written as one line feed. -/
def unifyLineEnds : Text → Text
  | .scalar '\r' :: .scalar '\n' :: cs => .scalar '\n' :: unifyLineEnds cs
  | .scalar '\r' :: cs => .scalar '\n' :: unifyLineEnds cs
  | c :: cs => c :: unifyLineEnds cs
  | [] => []

end Text

end ScriptTree
