import ScriptTree.Json.Basic

/-!
# Reading JSON

`Json.read` reads a whole text as one value. Besides the standard values it knows the three special
numbers `NaN`, `Infinity` and `-Infinity`; strings hold no raw control characters, and an escape may
name half of a surrogate pair. Reading stops at the first fault, and an integer with more digits
than are read is a fault of its own.
-/

namespace ScriptTree.Json

/-- Why a text is no value. -/
inductive Fault where
  | malformed
  | tooManyDigits
  deriving DecidableEq, Repr

/-- What must be there for a text to be well formed. -/
def expect {α : Type} : Option α → Except Fault α
  | some a => .ok a
  | none => .error .malformed

/-- Whether a code point separates the tokens of JSON. -/
def isGap (c : CodePoint) : Bool := ([' ', '\t', '\n', '\r'] : List Char).any (c = .scalar ·)

/-- What follows the gap at the start of a text. -/
def skipGap (t : Text) : Text := t.dropWhile isGap

/-- What follows a fixed word at the start of a text. -/
def word? (word t : Text) : Option Text := if t.startsWith word then some (t.drop word.length) else none

/-- The number spelled by the four hexadecimal digits at the start of a text. -/
def unit? (t : Text) : Option Nat :=
  if hasHexDigits 4 t then some (digitsValue 16 (t.take 4)) else none

/-- The code point that two halves of a surrogate pair make. -/
def pair? (high low : Nat) : Option CodePoint :=
  if 0xD800 ≤ high ∧ high < 0xDC00 ∧ 0xDC00 ≤ low ∧ low < 0xE000 then
    CodePoint.ofNat? (0x10000 + (high - 0xD800) * 0x400 + (low - 0xDC00))
  else none

/-- The code point of an escape after its backslash, and the number of code points it takes. -/
def escape? : Text → Option (CodePoint × Nat)
  | .scalar '"' :: _ => some (.scalar '"', 1)
  | .scalar '\\' :: _ => some (.scalar '\\', 1)
  | .scalar '/' :: _ => some (.scalar '/', 1)
  | .scalar 'b' :: _ => some (.scalar '\x08', 1)
  | .scalar 'f' :: _ => some (.scalar '\x0c', 1)
  | .scalar 'n' :: _ => some (.scalar '\n', 1)
  | .scalar 'r' :: _ => some (.scalar '\r', 1)
  | .scalar 't' :: _ => some (.scalar '\t', 1)
  | .scalar 'u' :: rest => do
    let high ← unit? rest
    let joined :=
      match rest.drop 4 with
      | .scalar '\\' :: .scalar 'u' :: more => (unit? more).bind (pair? high)
      | _ => none
    match joined with
    | some c => return (c, 11)
    | none => return (← CodePoint.ofNat? high, 5)
  | _ => none

/-- The rest of a string after its opening quote, with `skip` code points passed over first: its
value and what follows the closing quote. -/
def stringFrom (skip : Nat) : Text → Option (Text × Text)
  | [] => none
  | c :: cs =>
    match skip with
    | n + 1 => stringFrom n cs
    | 0 =>
      if c = .scalar '"' then some ([], cs)
      else if c = .scalar '\\' then do
        let (value, taken) ← escape? cs
        let (rest, after) ← stringFrom taken cs
        return (value :: rest, after)
      else if c.toNat < 0x20 then none
      else do
        let (rest, after) ← stringFrom 0 cs
        return (c :: rest, after)

def digitRun (t : Text) : Text := t.takeWhile (·.satisfies Char.isDigit)

/-- The length of the fraction at the start of a text, which needs a digit. -/
def fractionLength : Text → Nat
  | .scalar '.' :: rest => if (digitRun rest).isEmpty then 0 else (digitRun rest).length + 1
  | _ => 0

/-- The length of the exponent at the start of a text, which needs a digit. -/
def exponentLength : Text → Nat
  | c :: rest =>
    if c = .scalar 'e' ∨ c = .scalar 'E' then
      let (sign, body) :=
        match rest with
        | .scalar '+' :: more => (1, more)
        | .scalar '-' :: more => (1, more)
        | other => (0, other)
      if (digitRun body).isEmpty then 0 else (digitRun body).length + sign + 1
    else 0
  | [] => 0

/-- The number at the start of a text and what follows it. -/
def numberAt (t : Text) : Except Fault (Number × Text) := do
  let sign := if t.startsWith "-" then 1 else 0
  let body : Text := t.drop sign
  let whole := if body.startsWith "0" then 1 else (digitRun body).length
  if whole = 0 then throw .malformed
  let fraction := fractionLength (body.drop whole)
  let exponent := exponentLength (body.drop (whole + fraction))
  let size := sign + whole + fraction + exponent
  let cs ← expect (Text.chars? (t.take size))
  let n : Number ←
    if fraction + exponent = 0 then
      if Number.digitLimit < whole then throw .tooManyDigits
      expect ((Number.digits? 10 (cs.drop sign)).map fun n =>
        .integer (if sign = 1 then -(n : Int) else n))
    else expect ((Number.decimal? (sign = 1) (cs.drop sign)).map .double)
  return (n, t.drop size)

/-- The fixed words and the values they stand for. -/
def words : List (Text × Json) :=
  [("null", .null), ("true", .bool true), ("false", .bool false), ("NaN", .number (.double .nan)),
    ("Infinity", .number (.double (.infinite false))),
    ("-Infinity", .number (.double (.infinite true)))]

/-- The value of a fixed word or number at the start of a text. -/
def scalarAt (t : Text) : Except Fault (Json × Text) :=
  match words.findSome? fun (w, v) => (word? w t).map (v, ·) with
  | some found => .ok found
  | none => (numberAt t).map fun (n, rest) => (.number n, rest)

mutual

/-- The value at the start of a text, after a gap. -/
def valueAt : Nat → Text → Except Fault (Json × Text)
  | 0, _ => .error .malformed
  | fuel + 1, t =>
    match skipGap t with
    | .scalar '"' :: rest => (expect (stringFrom 0 rest)).map fun (s, after) => (.string s, after)
    | .scalar '[' :: rest =>
      match skipGap rest with
      | .scalar ']' :: after => .ok (.array [], after)
      | body => (itemsAt fuel body).map fun (xs, after) => (.array xs, after)
    | .scalar '\x7b' :: rest =>
      match skipGap rest with
      | .scalar '\x7d' :: after => .ok (.object [], after)
      | body => (fieldsAt fuel [] body).map fun (fs, after) => (.object fs, after)
    | other => scalarAt other

/-- The items of an array up to its closing bracket. -/
def itemsAt : Nat → Text → Except Fault (List Json × Text)
  | 0, _ => .error .malformed
  | fuel + 1, t => do
    let (item, rest) ← valueAt fuel t
    match skipGap rest with
    | .scalar ']' :: after => return ([item], after)
    | .scalar ',' :: more =>
      let (items, after) ← itemsAt fuel more
      return (item :: items, after)
    | _ => throw .malformed

/-- The fields of an object up to its closing brace, added to those read so far. -/
def fieldsAt : Nat → List (Text × Json) → Text → Except Fault (List (Text × Json) × Text)
  | 0, _, _ => .error .malformed
  | fuel + 1, soFar, t =>
    match skipGap t with
    | .scalar '"' :: body => do
      let (name, rest) ← expect (stringFrom 0 body)
      match skipGap rest with
      | .scalar ':' :: rest =>
        let (value, rest) ← valueAt fuel rest
        let fields := insertField name value soFar
        match skipGap rest with
        | .scalar '\x7d' :: after => return (fields, after)
        | .scalar ',' :: more => fieldsAt fuel fields more
        | _ => throw .malformed
      | _ => throw .malformed
    | _ => .error .malformed

end

/-- **Reading** a text as one JSON value. -/
def read (t : Text) : Except Fault Json := do
  let (value, rest) ← valueAt (t.length + 1) t
  if (skipGap rest).isEmpty then return value else throw .malformed

/-- The value of a text, if it is one. -/
def read? (t : Text) : Option Json := (read t).toOption

end ScriptTree.Json
