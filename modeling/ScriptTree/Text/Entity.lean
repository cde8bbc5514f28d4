import ScriptTree.Text.EntityTable

/-!
# Character references in markup

Text and attribute values of markup may name characters: `Entity.decode` replaces each reference by
what it stands for. A name needs no semicolon where the standard says so, the longest name that
starts a run of letters wins, and what is no reference stays as it is.
-/

namespace ScriptTree.Entity

/-- Numbers of controls that stand for the characters of an older encoding, from 128 on. -/
def legacyPoints : List Nat :=
  [0x20AC, 0x81, 0x201A, 0x192, 0x201E, 0x2026, 0x2020, 0x2021, 0x2C6, 0x2030, 0x160, 0x2039,
    0x152, 0x8D, 0x17D, 0x8F, 0x90, 0x2018, 0x2019, 0x201C, 0x201D, 0x2022, 0x2013, 0x2014,
    0x2DC, 0x2122, 0x161, 0x203A, 0x153, 0x9D, 0x17E, 0x178]

/-- Numbers that stand for nothing: most controls and the noncharacters. -/
def isForbidden (n : Nat) : Bool :=
  (1 ≤ n && n ≤ 8) || n == 11 || (14 ≤ n && n ≤ 31) || (0x7F ≤ n && n ≤ 0x9F)
    || (0xFDD0 ≤ n && n ≤ 0xFDEF) || n % 0x10000 == 0xFFFE || n % 0x10000 == 0xFFFF

/-- What a **number** stands for. -/
def numeric (n : Nat) : Text :=
  if n = 0 then [.scalar '�']
  else if 128 ≤ n && n < 160 then
    ((legacyPoints[n - 128]?).bind CodePoint.ofNat?).toList
  else
    match CodePoint.ofNat? n with
    | some (.scalar c) => if isForbidden n then [] else [.scalar c]
    | _ => [.scalar '�']

/-- What is listed under exactly this name. -/
def lookup (name : Text) : Option Text := (names.find? fun e => e.1 == name).map (·.2)

/-- The first of the prefixes of `run` with at least two and at most `len` code points, longest
first, that is a name: what it stands for, followed by the rest of the run. -/
def longestName (run : Text) : Nat → Option Text
  | 0 => none
  | len + 1 =>
    if len + 1 < 2 then none
    else match lookup (run.take (len + 1)) with
      | some value => some (value ++ run.drop (len + 1))
      | none => longestName run len

/-- What a **run of letters** after an ampersand stands for. -/
def named (run : Text) : Text :=
  match lookup run with
  | some value => value
  | none => (longestName run (run.length - 1)).getD (.scalar '&' :: run)

/-- Whether a code point may stand in a name. -/
def isNamePoint (c : CodePoint) : Bool :=
  !(["\t", "\n", "\x0c", " ", "<", "&", "#", ";"] : List Text).contains [c]

/-- A run with the semicolon that may end it. -/
def withSemicolon (run after : Text) : Text :=
  match after with
  | .scalar ';' :: _ => run ++ [.scalar ';']
  | _ => run

/-- The reference after an ampersand: what it stands for and the number of code points it takes. -/
def referenceAt (t : Text) : Text × Nat :=
  let semi (n : Nat) : Nat := if (t.drop n).head? = some (.scalar ';') then 1 else 0
  let number (base start : Nat) (digits : Text) : Text × Nat :=
    (numeric (digitsValue base digits), start + digits.length + semi (start + digits.length))
  match t with
  | .scalar '#' :: rest =>
    let decimal := rest.takeWhile (·.satisfies Char.isDigit)
    if !decimal.isEmpty then number 10 1 decimal
    else match rest with
      | x :: rest =>
        let hex := rest.takeWhile isHexDigit
        if (x = .scalar 'x' ∨ x = .scalar 'X') ∧ hex ≠ [] then number 16 2 hex
        else ([.scalar '&'], 0)
      | [] => ([.scalar '&'], 0)
  | _ =>
    let run := (t.take 32).takeWhile isNamePoint
    if run.isEmpty then ([.scalar '&'], 0)
    else
      let whole := withSemicolon run (t.drop run.length)
      (named whole, whole.length)

/-- The references of what follows replaced, after passing over `skip` code points. -/
def decodeFrom (skip : Nat) : Text → Text
  | [] => []
  | c :: cs =>
    match skip with
    | n + 1 => decodeFrom n cs
    | 0 =>
      if c = .scalar '&' then
        let (value, taken) := referenceAt cs
        value ++ decodeFrom taken cs
      else c :: decodeFrom 0 cs

/-- A text with its **character references** replaced. -/
def decode (t : Text) : Text := decodeFrom 0 t

end ScriptTree.Entity
