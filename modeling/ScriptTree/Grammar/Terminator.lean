import ScriptTree.Grammar.Rule

/-!
# Ends of statements

A statement ends with a semicolon, and the semicolon may be left out at a closing brace, at the end
of the script, or at the end of a line when the next line does not go on with the statement. Whether
it goes on is judged by the first character or two of the next line. Plain and typed scripts judge a
little differently, and after an expression (`goesOn`) otherwise than after anything else.
-/

namespace ScriptTree.Terminator

/-- What blanks and comments before the next token say about the end of a statement: they are no
comment after all, the next token decides, or the comment just read does not end a line. -/
inductive GapVerdict where
  | reject
  | accept
  | sameLine
  deriving DecidableEq

/-- The characters after a line comment. -/
def afterLine (cs : List Char) : List Char := cs.dropWhile (!endsLine ·)

/-- Whether a block comment holds a line end, and what follows it. -/
def afterBlock (seen : Bool) : List Char → Bool × List Char
  | [] => (seen, [])
  | '*' :: '/' :: cs => (seen, cs)
  | c :: cs => afterBlock (seen || endsLine c) cs

/-- Passes over blanks and comments. Unless `through`, it stops after a block comment that no other
comment follows directly. -/
def scanGap (through : Bool) (seen : Bool) : Nat → List Char → GapVerdict × List Char
  | 0, cs => (.reject, cs)
  | fuel + 1, cs =>
    match cs.dropWhile isSeparator with
    | '/' :: '/' :: rest => scanGap through seen fuel (afterLine rest)
    | '/' :: '*' :: rest =>
      let (seen, after) := afterBlock seen rest
      if !through && !after.isEmpty && after.head? != some '/' then
        (if seen then .accept else .sameLine, after)
      else scanGap through seen fuel after
    | '/' :: rest => (.reject, rest)
    | rest => (.accept, rest)

/-- Whether a word operator, and not a name, stands at the start: `in` or `instanceof`. -/
def startsWordOperator : List Char → Bool
  | 'i' :: 'n' :: rest =>
    if !(rest.head?.any Char.isAlpha) then true
    else "stanceof".toList.isPrefixOf rest && !((rest.drop 8).head?.any Char.isAlpha)
  | _ => false

/-- Whether a new line that starts so begins a new statement in either kind of script. -/
def beginsAnew (cs : List Char) : Bool :=
  match cs with
  | '+' :: rest => rest.head? == some '+'
  | '-' :: rest => rest.head? == some '-'
  | '!' :: rest => rest.head? != some '='
  | _ => !startsWordOperator cs

/-- Marks that carry a statement over to the next line in either kind of script. -/
def carriers : List Char :=
  ['\x60', ',', ':', ';', '*', '%', '>', '<', '=', '?', '^', '|', '&', '/']

/-- Whether a new line of a plain script begins a new statement. -/
def plainLineBegins (cs : List Char) : Bool :=
  match cs with
  | [] => true
  | c :: rest =>
    if carriers.contains c || c == '[' || c == '(' then false
    else if c = '.' then rest.head?.any Char.isDigit
    else beginsAnew cs

/-- Whether a new line of a typed script begins a new statement. -/
def typedLineBegins (goesOn signature : Bool) (cs : List Char) : Bool :=
  match cs with
  | [] => true
  | c :: _ =>
    if carriers.contains c || c == '.' then false
    else if c = '\x7b' then !signature
    else if c = '(' ∨ c = '[' then !goesOn
    else beginsAnew cs

/-- Whether a statement of a plain script ends here. -/
def plainEnds (goesOn : Bool) : Nat → List Char → Bool
  | 0, _ => false
  | fuel + 1, cs =>
    let nextLine (rest : List Char) : Bool :=
      match scanGap true false fuel rest with
      | (.reject, _) => false
      | (_, rest) => plainLineBegins rest
    let within (cs : List Char) : Bool :=
      match cs with
      | '\x7d' :: _ => true
      | c :: rest =>
        if endsLine c then nextLine rest
        else if isSeparator c then plainEnds goesOn fuel rest
        else false
      | [] => false
    match cs with
    | [] => true
    | '/' :: _ =>
      match scanGap false false fuel cs with
      | (.reject, _) => false
      | (verdict, rest) =>
        if verdict == .accept && !goesOn && rest.head? != some ',' && rest.head? != some '=' then
          true
        else within rest
    | _ => within cs

/-- Whether a statement of a typed script ends here. -/
def typedEnds (goesOn signature : Bool) : List Char → Bool
  | [] => true
  | '\x7d' :: rest =>
    if (rest.dropWhile isSeparator).head? == some ':' then goesOn else true
  | c :: rest =>
    if c = '\n' then
      match scanGap true false (rest.length + 1) rest with
      | (.reject, _) => false
      | (_, rest) => typedLineBegins goesOn signature rest
    else if isSeparator c then typedEnds goesOn signature rest
    else false

/-- Whether a statement **ends** before these characters although there is no semicolon. -/
def endsHere (d : Dialect) (goesOn signature : Bool) (cs : List Char) : Bool :=
  if d.hasTypes then typedEnds goesOn signature cs else plainEnds goesOn (cs.length + 1) cs

end ScriptTree.Terminator

namespace ScriptTree.Rule

/-- Whether a statement may end at the current place. -/
def endsHere (d : Dialect) (goesOn : Bool) : Parse Bool := do
  return Terminator.endsHere d goesOn false (← immediate)

/-- The end of a statement after at most `fuel` comments that belong to it. -/
def semicolonFrom (d : Dialect) (goesOn signature : Bool) : Nat → Rule
  | 0 => failure
  | fuel + 1 => do
    if Terminator.endsHere d goesOn signature (← immediate) then return []
    let c := (← get).skipBlanks
    match Cursor.commentLength? c.rest with
    | some n =>
      set (c.advance n)
      semicolonFrom d goesOn signature fuel
    | none =>
      set c
      if c.rest.head? = some ';' then take ";" false 1 else failure

/-- The **end of a statement**: a semicolon, or nothing where it may be left out. -/
def semicolon (d : Dialect) (goesOn : Bool) : Rule := do
  semicolonFrom d goesOn false (← get).stepsLeft

def signatureEnd (d : Dialect) : Rule := do semicolonFrom d false true (← get).stepsLeft

end ScriptTree.Rule
