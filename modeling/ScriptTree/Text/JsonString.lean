import ScriptTree.Text.CodePoint

/-!
# JSON strings

`JsonString.quote` writes text between double quotes on one line. Quotes, backslashes and control
characters are always escaped. The *plain ASCII* form, used for enum keys and log records, escapes
everything outside the printable ASCII range as UTF-16 units; the other form, used for compiled
markup, keeps such code points.
-/

namespace ScriptTree.JsonString

/-- `n` as `width` small hexadecimal digits. -/
def hexDigits (width n : Nat) : Text :=
  let digits := Nat.toDigits 16 n
  Text.ofChars (List.replicate (width - digits.length) '0' ++ digits)

/-- One UTF-16 unit as an escape. -/
def unitEscape (n : Nat) : Text := ("\\u" : Text) ++ hexDigits 4 n

/-- The UTF-16 units of a code point. -/
def units (c : CodePoint) : List Nat :=
  let n := c.toNat
  if n < 0x10000 then [n] else [0xD800 + (n - 0x10000) / 0x400, 0xDC00 + (n - 0x10000) % 0x400]

/-- A code point as written inside the quotes. -/
def point (ascii : Bool) (c : CodePoint) : Text :=
  match c with
  | .scalar '"' => "\\\""
  | .scalar '\\' => "\\\\"
  | .scalar '\n' => "\\n"
  | .scalar '\r' => "\\r"
  | .scalar '\t' => "\\t"
  | .scalar '\x0c' => "\\f"
  | .scalar '\x08' => "\\b"
  | other =>
    let n := other.toNat
    if n < 0x20 || (ascii && 0x7E < n) then (units other).flatMap unitEscape else [other]

/-- A text as a JSON string, in plain ASCII if `ascii`. -/
def quote (ascii : Bool) (t : Text) : Text :=
  .scalar '"' :: t.mapText (point ascii) ++ [.scalar '"']

end ScriptTree.JsonString
