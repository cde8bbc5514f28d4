import ScriptTree.Grammar.Cursor

/-!
# Grammar rules

A **rule** reads a piece of a script and gives the nodes that it reads, or fails and leaves the
place as it was. Rules are put together from tokens with the few operators of this module: one after
the other, a choice in which the first success counts, repetition, and a node around what is read.

A place always stands right after the last token that was read, so a node ends where its last token
ends; what lies between tokens is passed over before the next token is looked for.
-/

namespace ScriptTree

/-- Reading something from a place on, or failing. -/
abbrev Parse (α : Type) := StateT Cursor Option α

/-- A **rule**: reading nodes. -/
abbrev Rule := Parse (List Node)

namespace Rule

/-! ### Places -/

def offset : Parse Nat := do return (← get).offset

/-- Goes on to the next token. -/
def gap : Parse Unit := modify Cursor.skipGap

/-- The characters from the next token on. -/
def upcoming : Parse (List Char) := do return (← get).skipGap.rest

/-- The characters from the current place on. -/
def immediate : Parse (List Char) := do return (← get).rest

/-- Fails unless a condition holds. -/
def guard (b : Bool) : Rule := if b then pure [] else failure

/-- Fails if a line ends before the next token. -/
def sameLine : Rule := do guard !(← get).endsLineBefore

/-- Succeeds without reading if a rule would succeed. -/
def ahead (r : Rule) : Rule := do
  let c ← get
  let _ ← r
  set c
  return []

/-- Succeeds without reading if a rule would fail. -/
def notAhead (r : Rule) : Rule := fun c =>
  match r c with
  | some _ => none
  | none => some ([], c)

/-! ### Tokens -/

/-- Takes `n` characters as a node without children. -/
def take (kind : String) (named : Bool) (n : Nat) : Rule := do
  let start ← offset
  modify (·.advance n)
  return [⟨kind, named, false, none, start, ← offset, []⟩]

/-- The length of the name that starts at the next token. -/
def nameLength : Parse Nat := do return Lexeme.identifier (← upcoming)

/-- The word at the next token, whether reserved or not. -/
def peekWord : Parse String := do
  let cs ← upcoming
  return String.ofList (cs.take (Lexeme.identifier cs))

def word (w : String) : Rule := do
  let seen ← peekWord
  if seen == w then
    gap
    take w false w.length
  else failure

/-- A fixed word as a node of its own. -/
def leafWord (kind w : String) : Rule := do
  let seen ← peekWord
  if seen == w then
    gap
    take kind true w.length
  else failure

def oneWord (ws : List String) : Rule := do
  let seen ← peekWord
  if ws.contains seen then word seen else failure

/-- A **punctuator**, read as the longest one that stands there. -/
def mark (p : String) : Rule := do
  let cs ← upcoming
  if p.toList.isPrefixOf cs && Lexeme.punctuator cs == p then
    gap
    take p false p.length
  else failure

/-- A mark whatever follows it. -/
def bareMark (p : String) : Rule := do
  if p.toList.isPrefixOf (← upcoming) then
    gap
    take p false p.length
  else failure

/-- Any name, reserved or not, as a node of some kind. -/
def anyName (kind : String) : Rule := do
  let n ← nameLength
  if n = 0 then failure
  else
    gap
    take kind true n

/-- A name that is not reserved, as a node of some kind. -/
def name (kind : String) : Rule := do
  let cs ← upcoming
  let n := Lexeme.identifier cs
  if n = 0 || Lexeme.isReserved (cs.take n) then failure
  else
    gap
    take kind true n

def identifier : Rule := name "identifier"

def privateName : Rule := do
  let n := Lexeme.privateName (← upcoming)
  if n = 0 then failure
  else
    gap
    take "private_property_identifier" true n

def number : Rule := do
  let n := Lexeme.number (← upcoming)
  if n = 0 then failure
  else
    gap
    take "number" true n

/-- A lexeme given by a function that measures it. -/
def lexeme (kind : String) (length? : List Char → Option Nat) : Rule := do
  match length? (← upcoming) with
  | some n =>
    gap
    take kind true n
  | none => failure

def string : Rule := lexeme "string" Lexeme.string?

def regex : Rule := lexeme "regex" Lexeme.regex?

/-! ### Putting rules together -/

/-- Rules one **after** the other. -/
def seq : List Rule → Rule
  | [] => pure []
  | r :: rs => do
    let first ← r
    let rest ← seq rs
    return first ++ rest

/-- The **first** of some rules that succeeds. -/
def alt : List Rule → Rule
  | [] => failure
  | r :: rs => r <|> alt rs

/-- A rule that may be **left out**. -/
def opt (r : Rule) : Rule := r <|> pure []

/-- A rule as often as it succeeds and gets on, at most `fuel` times. -/
def manyFrom (r : Rule) : Nat → Rule
  | 0 => pure []
  | fuel + 1 => do
    let before ← offset
    let c ← get
    match r c with
    | none => return []
    | some (nodes, c') =>
      if c'.offset ≤ before then return []
      else
        set c'
        return nodes ++ (← manyFrom r fuel)

/-- A rule as **often** as it succeeds. -/
def many (r : Rule) : Rule := do manyFrom r (← get).stepsLeft

/-- A rule once or more, with a separator in between. -/
def separated (sep r : Rule) : Rule := seq [r, many (seq [sep, r])]

/-- Items with commas between them, of which some may be left out; commas are kept. -/
def commaSeparated (item : Rule) : Rule := seq [opt item, many (seq [mark ",", opt item])]

/-- Items with commas between them and perhaps one at the end. -/
def commaList (item : Rule) : Rule := opt (seq [separated (mark ",") item, opt (mark ",")])

/-- A **node** around what a rule reads. -/
def node (kind : String) (r : Rule) : Rule := do
  gap
  let start ← offset
  let children ← r
  return [⟨kind, true, false, none, start, ← offset, children⟩]

/-- A node around nodes that were read before and what a rule reads after them. -/
def extend (kind : String) (before : List Node) (r : Rule) : Rule := do
  let after ← r
  let children := before ++ after
  let stop ← offset
  let start := (children.head?.map (·.start)).getD stop
  return [⟨kind, true, false, none, start, stop, children⟩]

/-- A rule whose nodes get a **role**. -/
def field (role : Role) (r : Rule) : Rule := do return (← r).map (·.inRole role)

/-- Applies steps to what was read, each to the result of the one before, as often as one succeeds
and gets on. -/
def chainFrom (step : List Node → Rule) : Nat → List Node → Rule
  | 0, nodes => pure nodes
  | fuel + 1, nodes => do
    let c ← get
    match step nodes c with
    | none => return nodes
    | some (longer, c') =>
      if c'.offset ≤ c.offset then return nodes
      else
        set c'
        chainFrom step fuel longer

/-- A rule followed by as many steps as succeed, each applied to what was read before. -/
def chain (r : Rule) (step : List Node → Rule) : Rule := do
  let first ← r
  chainFrom step (← get).stepsLeft first

end Rule

end ScriptTree
