/-!
# Code points and text

A script may spell half of a surrogate pair in an escape, so the value of a string literal is not
always a sequence of characters. **Text** is therefore a list of code points, where a code point is
a character or a lone surrogate half; it is the one text type of the library. String literals are
read as text through a coercion.
-/

namespace ScriptTree

/-- A **code point** is a character, or a lone surrogate half counted from U+D800. -/
inductive CodePoint where
  | scalar (c : Char)
  | surrogate (half : Fin 2048)
  deriving DecidableEq, Repr, Inhabited

abbrev Text := List CodePoint

namespace CodePoint

def toNat : CodePoint → Nat
  | .scalar c => c.toNat
  | .surrogate h => 0xD800 + h.val

/-- The code point with a given number; numbers above U+10FFFF have none. -/
def ofNat? (n : Nat) : Option CodePoint :=
  if h : 0xD800 ≤ n ∧ n < 0xE000 then
    some (.surrogate ⟨n - 0xD800, by omega⟩)
  else if n < 0x110000 then
    some (.scalar (Char.ofNat n))
  else
    none

/-- The character that a code point is, if it is one. -/
def char? : CodePoint → Option Char
  | .scalar c => some c
  | .surrogate _ => none

/-- Whether a predicate on characters holds of a code point; it fails on a lone half. -/
def satisfies (p : Char → Bool) : CodePoint → Bool
  | .scalar c => p c
  | .surrogate _ => false

instance : Coe Char CodePoint := ⟨.scalar⟩

@[simp] theorem char?_scalar (c : Char) : (scalar c).char? = some c := rfl

@[simp] theorem satisfies_scalar (p : Char → Bool) (c : Char) : (scalar c).satisfies p = p c := rfl

end CodePoint

namespace Text

def ofChars (cs : List Char) : Text := cs.map .scalar

def ofString (s : String) : Text := ofChars s.toList

instance : Coe String Text := ⟨ofString⟩

/-- The characters of a text that holds no lone surrogate half. -/
def chars? (t : Text) : Option (List Char) := t.mapM CodePoint.char?

/-- Reading characters back from text gives the same characters. -/
@[simp] theorem chars?_ofChars (cs : List Char) : chars? (ofChars cs) = some cs := by
  induction cs with
  | nil => rfl
  | cons c cs ih =>
    have h : List.mapM CodePoint.char? (cs.map CodePoint.scalar) = some cs := ih
    simp [chars?, ofChars, List.mapM_cons, h]

/-- Decimal digits of a number. -/
def ofNat (n : Nat) : Text := ofChars (Nat.toDigits 10 n)

/-- Decimal numeral of an integer. -/
def ofInt : Int → Text
  | .ofNat n => ofNat n
  | .negSucc n => .scalar '-' :: ofNat (n + 1)

/-- The pieces between the separators; there is always at least one. -/
def splitOn (sep : CodePoint) : Text → List Text
  | [] => [[]]
  | c :: cs =>
    if c = sep then [] :: splitOn sep cs
    else match splitOn sep cs with
      | [] => [[c]]
      | piece :: rest => (c :: piece) :: rest

/-- Texts put side by side with a separator between them. -/
def join (sep : Text) (ts : List Text) : Text := (ts.intersperse sep).flatten

/-- Each code point replaced by the text that a function gives for it. -/
def mapText (f : CodePoint → Text) (t : Text) : Text := t.flatMap f

/-- Whether one text occurs inside another. -/
def occursIn (needle : Text) : Text → Bool
  | [] => needle.isEmpty
  | c :: cs => needle.isPrefixOf (c :: cs) || occursIn needle cs

def startsWith (t pre : Text) : Bool := pre.isPrefixOf t

def endsWith (t suf : Text) : Bool := suf.isSuffixOf t

/-- The text without the code points at its start that satisfy a predicate. -/
def dropStart (p : CodePoint → Bool) (t : Text) : Text := t.dropWhile p

/-- The text without the code points at its end that satisfy a predicate. -/
def dropEnd (p : CodePoint → Bool) (t : Text) : Text := (t.reverse.dropWhile p).reverse

def occurrences (c : CodePoint) (t : Text) : Nat := t.count c

/-- The text with ASCII capitals made small; file extensions hold no other letters. -/
def lowerAscii (t : Text) : Text :=
  t.map fun
    | .scalar c => .scalar c.toLower
    | half => half

/-- Whether one text comes before another in the order of code points or is the same. -/
def atMost : Text → Text → Bool
  | [], _ => true
  | _ :: _, [] => false
  | a :: as, b :: bs => a.toNat < b.toNat || (a = b && atMost as bs)

/-- Splitting always gives a first piece. -/
theorem splitOn_ne_nil (sep : CodePoint) (t : Text) : splitOn sep t ≠ [] := by
  cases t with
  | nil => simp [splitOn]
  | cons c cs =>
    unfold splitOn
    split
    · simp
    · split <;> simp

end Text

end ScriptTree
