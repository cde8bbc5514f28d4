import ScriptTree.Text.CodePoint

/-!
# Tokens of shell scripts

The host of a run has a small **shell**. Its scripts are cut into words and operators. A word is a
list of pieces, because quoting decides what happens to each part of it later.
-/

namespace ScriptTree.Shell

/-- A **piece** of a word: text, the value of a parameter, or what a script prints. -/
inductive Piece where
  | plain (t : Text)
  | quoted (t : Text)
  | parameter (name : Text) (quoted : Bool)
  | substitution (script : Text) (quoted : Bool)
  deriving DecidableEq, Repr

abbrev Word := List Piece

/-- A **token**: a word, an operator, the number of a stream before a redirection, or text that
cannot be read. -/
inductive Token where
  | word (w : Word)
  | operator (t : Text)
  | stream (n : Nat)
  | fault
  deriving DecidableEq, Repr

/-- The operators, longer ones first. -/
def operators : List Text := ["&&", "||", ";;", ">>", ">&", ";", "&", "|", "(", ")", ">", "<", "\n"]

/-- Whether a code point is a blank between tokens. -/
def isGap (c : CodePoint) : Bool := c = .scalar ' ' ∨ c = .scalar '\t'

/-- Whether a code point ends an unquoted word. -/
def endsWord (c : CodePoint) : Bool :=
  c.satisfies fun d => " \t\n;&|()<>".toList.contains d

/-- Whether a code point can be part of the name of a variable. -/
def isNamePoint (c : CodePoint) : Bool := c.satisfies fun d => d.isAlphanum || d == '_'

/-- Whether a code point is the name of a special parameter. -/
def isSpecial (c : CodePoint) : Bool := c.satisfies fun d => d.isDigit || "@*#?$!-".toList.contains d

/-- The text up to the parenthesis that closes the one before it, and the rest. -/
def closing (depth : Nat) (quote : Option CodePoint) : Text → Option (Text × Text)
  | [] => none
  | c :: rest =>
    let go (depth : Nat) (quote : Option CodePoint) : Option (Text × Text) :=
      (closing depth quote rest).map fun (inner, rest) => (c :: inner, rest)
    match quote with
    | some q =>
      if c = .scalar '(' ∧ q = .scalar '"' then go (depth + 1) none
      else go depth (if c = q then none else some q)
    | none =>
      if c = .scalar '\x27' ∨ c = .scalar '"' then go depth (some c)
      else if c = .scalar '(' then go (depth + 1) none
      else if c = .scalar ')' then
        if depth = 0 then some ([], rest) else go (depth - 1) none
      else go depth none

/-- The piece after a dollar sign, and the rest. -/
def expansion? (quoted : Bool) (t : Text) : Option (Piece × Text) :=
  match t with
  | .scalar '(' :: rest => (closing 0 none rest).map fun (s, rest) => (.substitution s quoted, rest)
  | .scalar '\x7b' :: rest =>
    let name := rest.takeWhile (· ≠ .scalar '\x7d')
    if name.length < rest.length then
      some (.parameter name quoted, rest.drop (name.length + 1))
    else none
  | c :: rest =>
    if isSpecial c then some (.parameter [c] quoted, rest)
    else
      let name := t.takeWhile isNamePoint
      if name.isEmpty then some (.plain [.scalar '$'], t)
      else some (.parameter name quoted, t.drop name.length)
  | [] => some (.plain [.scalar '$'], [])

/-- The pieces between double quotes, and the rest. -/
def doubleQuoted : Nat → Text → Option (Word × Text)
  | 0, _ => none
  | n + 1, t =>
    match t with
    | [] => none
    | .scalar '"' :: rest => some ([.quoted []], rest)
    | .scalar '\\' :: c :: rest => do
      let (w, rest) ← doubleQuoted n rest
      if c = .scalar '\n' then return (w, rest)
      let kept : Text :=
        if c.satisfies fun d => "$\x60\"\\".toList.contains d then [c] else [.scalar '\\', c]
      return (.quoted kept :: w, rest)
    | .scalar '$' :: rest => do
      let (piece, rest) ← expansion? true rest
      let (w, rest) ← doubleQuoted n rest
      return (piece :: w, rest)
    | c :: rest => do
      let (w, rest) ← doubleQuoted n rest
      return (.quoted [c] :: w, rest)

/-- The word at the start of a text, and the rest. -/
def word? : Nat → Text → Option (Word × Text)
  | 0, _ => none
  | n + 1, t =>
    match t with
    | [] => some ([], [])
    | .scalar '\x27' :: rest => do
      let inner := rest.takeWhile (· ≠ .scalar '\x27')
      if inner.length = rest.length then none
      let (w, rest) ← word? n (rest.drop (inner.length + 1))
      return (.quoted inner :: w, rest)
    | .scalar '"' :: rest => do
      let (inner, rest) ← doubleQuoted n rest
      let (w, rest) ← word? n rest
      return (inner ++ w, rest)
    | .scalar '\\' :: c :: rest => do
      let (w, rest) ← word? n rest
      return (if c = .scalar '\n' then w else .quoted [c] :: w, rest)
    | .scalar '\x60' :: rest => do
      let inner := rest.takeWhile (· ≠ .scalar '\x60')
      if inner.length = rest.length then none
      let (w, rest) ← word? n (rest.drop (inner.length + 1))
      return (.substitution inner false :: w, rest)
    | .scalar '$' :: rest => do
      let (piece, rest) ← expansion? false rest
      let (w, rest) ← word? n rest
      return (piece :: w, rest)
    | c :: rest =>
      if endsWord c then some ([], t)
      else do
        let (w, rest) ← word? n rest
        return (.plain [c] :: w, rest)

/-- The text of a word without quotes and expansions. -/
def bare? : Word → Option Text
  | [] => some []
  | .plain t :: rest => (bare? rest).map (t ++ ·)
  | _ :: _ => none

/-- The number that a word of digits spells. -/
def numberOf? (t : Text) : Option Nat :=
  if !t.isEmpty && t.all (·.satisfies Char.isDigit) then
    some (t.foldl (fun n c => n * 10 + (c.toNat - 48)) 0)
  else none

/-- A word as a token: digits before a redirection are the number of a stream. -/
def wordToken (w : Word) (rest : Text) : Token :=
  match (bare? w).bind numberOf?, rest with
  | some n, .scalar '>' :: _ => .stream n
  | some n, .scalar '<' :: _ => .stream n
  | _, _ => .word w

/-- The **tokens** of a script, as far as they can be read; `n` bounds their number. -/
def tokensFrom : Nat → Text → List Token
  | 0, _ => []
  | n + 1, t =>
    match t with
    | [] => []
    | .scalar '\\' :: .scalar '\n' :: rest => tokensFrom n rest
    | c :: rest =>
      if isGap c then tokensFrom n rest
      else if c = .scalar '#' then tokensFrom n (rest.dropWhile (· ≠ .scalar '\n'))
      else match operators.find? t.startsWith with
        | some op => .operator op :: tokensFrom n (t.drop op.length)
        | none =>
          match word? (t.length + 1) t with
          | some (w, rest) => wordToken w rest :: tokensFrom n rest
          | none => [.fault]

/-- The **tokens** of a script. -/
def tokens (script : Text) : List Token := tokensFrom (script.length + 1) script

end ScriptTree.Shell
