import ScriptTree.Text.JsonString
import ScriptTree.Text.CharClass

/-!
# Quoted snippets

Messages show a piece of source, a path or an option between quotes. Single quotes are used unless
the text holds single quotes and no double ones; the quote and the backslash are escaped, and so is
every character that would not be visible.
-/

namespace ScriptTree.Snippet

/-- The quote that a text is shown with. -/
def quoteFor (t : Text) : CodePoint :=
  if t.contains (.scalar '\'') && !t.contains (.scalar '"') then .scalar '"' else .scalar '\''

/-- A number written as the shortest of the escapes with two, four and eight digits. -/
def numberEscape (n : Nat) : Text :=
  if n < 0x100 then ("\\x" : Text) ++ JsonString.hexDigits 2 n
  else if n < 0x10000 then ("\\u" : Text) ++ JsonString.hexDigits 4 n
  else ("\\U" : Text) ++ JsonString.hexDigits 8 n

/-- A code point as shown between quotes. -/
def point (quote c : CodePoint) : Text :=
  if c = quote then [.scalar '\\', quote]
  else match c with
    | .scalar '\\' => "\\\\"
    | .scalar '\n' => "\\n"
    | .scalar '\r' => "\\r"
    | .scalar '\t' => "\\t"
    | .scalar d => if isPrintable d then [c] else numberEscape d.toNat
    | half => numberEscape half.toNat

/-- A text between quotes. -/
def quote (t : Text) : Text :=
  let q := quoteFor t
  q :: t.mapText (point q) ++ [q]

end ScriptTree.Snippet
