import ScriptTree.Text.CodePoint

/-!
# String and template literals

A specifier is written as a string literal or as the text of a template. `unescape` gives the value
of a literal's body; `stringLiteral` and `templateText` write a value so that it reads back. The
only body without a value is one that names a code point above U+10FFFF.
-/

namespace ScriptTree

/-- Why a body has no value: a braced escape names a number above U+10FFFF; past 2^31 the number is
not even considered. -/
inductive EscapeFault where
  | outOfRange
  | tooLarge
  deriving DecidableEq, Repr

def hexValue? (c : Char) : Option Nat :=
  if '0' ≤ c && c ≤ '9' then some (c.toNat - 48)
  else if 'a' ≤ c && c ≤ 'f' then some (c.toNat - 87)
  else if 'A' ≤ c && c ≤ 'F' then some (c.toNat - 55)
  else none

def isHexDigit (c : CodePoint) : Bool := c.satisfies fun d => (hexValue? d).isSome

def isOctalDigit (c : CodePoint) : Bool := c.satisfies fun d => '0' ≤ d && d ≤ '7'

/-- The number that digits spell in a base of at most sixteen; anything else counts as zero. -/
def digitsValue (base : Nat) (t : Text) : Nat :=
  t.foldl (fun n c => n * base + ((c.char?.bind hexValue?).getD 0)) 0

/-- The code point that an escape names by number. -/
def numbered (n : Nat) : Except EscapeFault Text :=
  match CodePoint.ofNat? n with
  | some c => .ok [c]
  | none => .error (if n < 0x80000000 then .outOfRange else .tooLarge)

/-- The value of an escaped character that is no number: the six short names, nothing for a line
break, and the character itself otherwise. -/
def shortEscape (c : CodePoint) : Text :=
  match c with
  | .scalar 'n' => [.scalar '\n']
  | .scalar 't' => [.scalar '\t']
  | .scalar 'r' => [.scalar '\r']
  | .scalar 'b' => [.scalar '\x08']
  | .scalar 'f' => [.scalar '\x0c']
  | .scalar 'v' => [.scalar '\x0b']
  | .scalar '\n' => []
  | .scalar '\r' => []
  | .scalar '\u2028' => []
  | .scalar '\u2029' => []
  | other => [other]

/-- The digits of a braced escape, when the text after the brace spells one. -/
def bracedDigits? (t : Text) : Option Text :=
  let digits := t.takeWhile isHexDigit
  match t.drop digits.length with
  | .scalar '\x7d' :: _ => if digits.isEmpty then none else some digits
  | _ => none

/-- Whether the first `n` code points exist and are hexadecimal digits. -/
def hasHexDigits (n : Nat) (t : Text) : Bool := (t.take n).length == n && (t.take n).all isHexDigit

/-- The escape after a backslash: its value and the number of code points it takes. A backslash at
the end of the body stands for itself. -/
def escapeAt (t : Text) : Except EscapeFault (Text × Nat) :=
  let byNumber (base len skip : Nat) : Except EscapeFault (Text × Nat) :=
    (numbered (digitsValue base ((t.drop skip).take len))).map (·, skip + len)
  let byOctal : Except EscapeFault (Text × Nat) :=
    byNumber 8 ((t.take 3).takeWhile isOctalDigit).length 0
  match t with
  | [] => .ok ([.scalar '\\'], 0)
  | .scalar 'u' :: .scalar '\x7b' :: rest =>
    match bracedDigits? rest with
    | some digits => (numbered (digitsValue 16 digits)).map (·, digits.length + 3)
    | none => .ok ([.scalar 'u'], 1)
  | .scalar 'u' :: rest =>
    if hasHexDigits 4 rest then byNumber 16 4 1 else .ok ([.scalar 'u'], 1)
  | .scalar 'x' :: rest =>
    if hasHexDigits 2 rest then byNumber 16 2 1 else .ok ([.scalar 'x'], 1)
  | .scalar '\r' :: .scalar '\n' :: _ => .ok ([], 2)
  | c :: _ => if isOctalDigit c then byOctal else .ok (shortEscape c, 1)

/-- The value of what follows, after passing over `skip` code points that an escape has taken. -/
def unescapeFrom (skip : Nat) : Text → Except EscapeFault Text
  | [] => .ok []
  | c :: cs =>
    match skip with
    | n + 1 => unescapeFrom n cs
    | 0 =>
      if c = .scalar '\\' then
        match escapeAt cs with
        | .error e => .error e
        | .ok (value, taken) => (unescapeFrom taken cs).map (value ++ ·)
      else
        (unescapeFrom 0 cs).map (c :: ·)

/-- The **value** of a literal's body. -/
def unescape (body : Text) : Except EscapeFault Text := unescapeFrom 0 body

/-- The quote that a value is written with: the single one, unless the value holds single quotes
and no double ones. -/
def quoteFor (value : Text) : CodePoint :=
  if value.contains (.scalar '\'') && !value.contains (.scalar '"') then .scalar '"'
  else .scalar '\''

/-- A code point of a value as written between quotes. -/
def quotedPoint (quote c : CodePoint) : Text :=
  if c = .scalar '\\' then "\\\\"
  else if c = .scalar '\n' then "\\n"
  else if c = .scalar '\r' then "\\r"
  else if c = quote then [.scalar '\\', quote]
  else [c]

/-- A value written as a **string literal**. -/
def stringLiteral (value : Text) : Text :=
  let quote := quoteFor value
  quote :: value.mapText (quotedPoint quote) ++ [quote]

/-- A value written as the **text of a template**: a backslash, a backtick and the start of a
substitution are escaped. -/
def templateText : Text → Text
  | .scalar '$' :: .scalar '\x7b' :: cs =>
    .scalar '\\' :: .scalar '$' :: .scalar '\x7b' :: templateText cs
  | .scalar '\\' :: cs => .scalar '\\' :: .scalar '\\' :: templateText cs
  | .scalar '\x60' :: cs => .scalar '\\' :: .scalar '\x60' :: templateText cs
  | c :: cs => c :: templateText cs
  | [] => []

end ScriptTree
