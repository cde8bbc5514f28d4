import ScriptTree.Number.Shortest
import ScriptTree.Text.Blank
import ScriptTree.Text.Literal

/-!
# Numerals

A **number** is an exact integer or a double. `Number.read?` reads a numeral: an integer in base
ten, or in base 2, 8 or 16 with a mark, and any other decimal as a double. Separating underscores do
not count. `Number.succ` is the next number and `Number.text` writes a number, a whole double
without a fraction.
-/

namespace ScriptTree

/-- A **number**: an exact integer or a double. -/
inductive Number where
  | integer (n : Int)
  | double (d : Double)
  deriving DecidableEq, Repr

/-- The reason why a number has no text. -/
inductive NumeralFault where
  | tooManyDigits
  deriving DecidableEq, Repr

namespace Number

/-- The number of decimal digits beyond which integers are neither read nor written. -/
def digitLimit : Nat := 4300

/-- A numeral without the blanks around it. -/
def trim (cs : List Char) : List Char :=
  ((cs.dropWhile isSeparator).reverse.dropWhile isSeparator).reverse

/-- The sign of a numeral and what follows it. -/
def splitSign : List Char → Bool × List Char
  | '-' :: cs => (true, cs)
  | '+' :: cs => (false, cs)
  | cs => (false, cs)

/-- The number spelled by at least one digit, all below `base`. -/
def digits? (base : Nat) (cs : List Char) : Option Nat :=
  if cs.isEmpty then none
  else cs.foldlM (fun n c => (hexValue? c).bind fun v =>
    if v < base then some (n * base + v) else none) 0

/-- The natural number that an unsigned numeral spells: a mark for the base, or decimal digits
without a zero in front. -/
def natural? : List Char → Option Nat
  | '0' :: 'x' :: cs => digits? 16 cs
  | '0' :: 'X' :: cs => digits? 16 cs
  | '0' :: 'o' :: cs => digits? 8 cs
  | '0' :: 'O' :: cs => digits? 8 cs
  | '0' :: 'b' :: cs => digits? 2 cs
  | '0' :: 'B' :: cs => digits? 2 cs
  | '0' :: cs => if cs.all (· == '0') then some 0 else none
  | cs => if digitLimit < cs.length then none else digits? 10 cs

/-- The exponent at the end of a decimal; nothing means none. -/
def exponent? : List Char → Option Int
  | [] => some 0
  | e :: cs =>
    if e = 'e' ∨ e = 'E' then
      let (negative, ds) := splitSign cs
      (digits? 10 ds).map fun n => if negative then -(n : Int) else n
    else none

/-- The double that an unsigned decimal spells, with a sign put on it. -/
def decimal? (negative : Bool) (cs : List Char) : Option Double :=
  let whole := cs.takeWhile Char.isDigit
  let rest := cs.dropWhile Char.isDigit
  let (fraction, tail) :=
    match rest with
    | '.' :: more => (more.takeWhile Char.isDigit, more.dropWhile Char.isDigit)
    | other => ([], other)
  if whole.isEmpty && fraction.isEmpty then none
  else do
    let n ← digits? 10 (whole ++ fraction)
    let e ← exponent? tail
    return Double.ofDecimal negative n (e - fraction.length)

/-- The double that a signed numeral spells: a decimal or one of the names of the special values. -/
def double? (cs : List Char) : Option Double :=
  let (negative, body) := splitSign cs
  match String.ofList (body.map Char.toLower) with
  | "inf" => some (.infinite negative)
  | "infinity" => some (.infinite negative)
  | "nan" => some .nan
  | _ => decimal? negative body

/-- **Reading** a numeral. -/
def read? (t : Text) : Option Number := do
  let cs ← t.chars?
  let body := trim (cs.filter (· != '_'))
  let (negative, rest) := splitSign body
  match natural? rest with
  | some n => return .integer (if negative then -(n : Int) else n)
  | none => (double? body).map .double

/-- The number **after** a number. -/
def succ : Number → Number
  | .integer n => .integer (n + 1)
  | .double d => .double (d.add (.finite false Double.one))

/-- The decimal text of an integer that is not too long. -/
def integerText (n : Int) : Except NumeralFault Text :=
  let t := Text.ofInt n
  if digitLimit < (Nat.toDigits 10 n.natAbs).length then .error .tooManyDigits else .ok t

def text : Number → Except NumeralFault Text
  | .integer n => integerText n
  | .double d =>
    match d.toInt? with
    | some n => integerText n
    | none => .ok d.text

end Number

end ScriptTree
