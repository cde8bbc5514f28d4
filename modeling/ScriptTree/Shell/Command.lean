import ScriptTree.Shell.Token

/-!
# Commands of shell scripts

A script is a list of lines, each with a **command**: a program with its words, or commands put
together. A line is read as a whole before it is run.
-/

namespace ScriptTree.Shell

/-- Where a stream of a command goes: nowhere that is seen, to another stream, or to a file. -/
inductive Redirection where
  | toStream (stream target : Nat)
  | toFile (stream : Nat) (add : Bool) (file : Word)
  | fromFile (file : Word)
  deriving DecidableEq, Repr

inductive Command where
  | simple (assignments : List (Text × Word)) (words : List Word) (redirections : List Redirection)
  | pipe (left right : Command)
  | negate (command : Command)
  | both (left right : Command)
  | either (left right : Command)
  | sequence (first second : Command)
  | branch (condition consequence alternative : Command)
  | each (name : Text) (words : Option (List Word)) (body : Command)
  | loop (expected : Bool) (condition body : Command)
  | subshell (body : Command)
  | nothing
  deriving Repr

/-- The word that a token spells without quotes. -/
def Token.bare? : Token → Option Text
  | .word w => Shell.bare? w
  | _ => none

/-- Words that end a list of commands. -/
def closers : List Text := ["then", "else", "elif", "fi", "do", "done", "\x7d"]

/-- The tokens without the line ends at their start. -/
def skipLines (ts : List Token) : List Token := ts.dropWhile (· = .operator "\n")

/-- The tokens after one that must come next. -/
def expect (t : Text) : List Token → Option (List Token)
  | token :: rest => if token = .operator t ∨ token.bare? = some t then some rest else none
  | [] => none

/-- The variable and the value that a word assigns. -/
def assignment? (w : Word) : Option (Text × Word) :=
  let front := w.takeWhile fun p => p ≠ .plain [.scalar '=']
  match bare? front, w.drop front.length with
  | some name, _ :: value =>
    if !name.isEmpty && name.all isNamePoint && !(name.headD (.scalar ' ')).satisfies Char.isDigit then
      some (name, value)
    else none
  | _, _ => none

/-- The redirection whose operator comes next, for a stream. -/
def redirection? (stream : Option Nat) : List Token → Option (Redirection × List Token)
  | .operator op :: .word w :: rest =>
    if op = ">" then some (.toFile (stream.getD 1) false w, rest)
    else if op = ">>" then some (.toFile (stream.getD 1) true w, rest)
    else if op = "<" then some (.fromFile w, rest)
    else if op = ">&" then
      ((bare? w).bind numberOf?).map fun n => (.toStream (stream.getD 1) n, rest)
    else none
  | _ => none

def isRedirection : Token → Bool
  | .stream _ => true
  | .operator op => [(">" : Text), ">>", "<", ">&"].contains op
  | _ => false

/-- The words and redirections of a simple command, and the rest. -/
def simple? : Nat → List Token → Option ((List Word × List Redirection) × List Token)
  | 0, _ => none
  | n + 1, ts =>
    match ts with
    | .word w :: rest => do
      let ((words, redirections), rest) ← simple? n rest
      return ((w :: words, redirections), rest)
    | .stream s :: rest => do
      let (r, rest) ← redirection? (some s) rest
      let ((words, redirections), rest) ← simple? n rest
      return ((words, r :: redirections), rest)
    | token :: rest =>
      if isRedirection token then do
        let (r, rest) ← redirection? none (token :: rest)
        let ((words, redirections), rest) ← simple? n rest
        return ((words, r :: redirections), rest)
      else some (([], []), token :: rest)
    | [] => some (([], []), [])

/-- The words at the start that assign variables, and the other words. -/
def splitAssignments : List Word → List (Text × Word) × List Word
  | [] => ([], [])
  | w :: rest =>
    match assignment? w with
    | some a =>
      let (assignments, words) := splitAssignments rest
      (a :: assignments, words)
    | none => ([], w :: rest)

/-- The words of a list that a loop goes through, and the rest. -/
def loopWords : List Token → List Word × List Token
  | .word w :: rest =>
    let (ws, rest) := loopWords rest
    (w :: ws, rest)
  | ts => ([], ts)

mutual

/-- The command that comes next, not yet joined with others. -/
def command? : Nat → List Token → Option (Command × List Token)
  | 0, _ => none
  | n + 1, ts =>
    match ts with
    | .operator op :: rest =>
      if op = "(" then do
        let (body, rest) ← list? n rest
        return (.subshell body, ← expect ")" rest)
      else if isRedirection (.operator op) then plain? n ts
      else none
    | token :: rest =>
      match token.bare? with
      | none => plain? n ts
      | some name =>
        if name = "!" then do
          let (c, rest) ← command? n rest
          return (.negate c, rest)
        else if name = "\x7b" then do
          let (body, rest) ← list? n rest
          return (body, ← expect "\x7d" rest)
        else if name = "if" then branch? n rest
        else if name = "while" ∨ name = "until" then do
          let (condition, rest) ← list? n rest
          let (body, rest) ← list? n (← expect "do" rest)
          return (.loop (name = "while") condition body, ← expect "done" rest)
        else if name = "for" then each? n rest
        else if closers.contains name then none
        else plain? n ts
    | [] => none

/-- The simple command that comes next; it must not be empty. -/
def plain? : Nat → List Token → Option (Command × List Token)
  | 0, _ => none
  | n + 1, ts => do
    let ((words, redirections), rest) ← simple? n ts
    if words.isEmpty && redirections.isEmpty then none
    if rest.head? = some .fault ∨ rest.head? = some (.operator "(") then none
    let (assignments, words) := splitAssignments words
    return (.simple assignments words redirections, rest)

/-- The rest of a command that branches. -/
def branch? : Nat → List Token → Option (Command × List Token)
  | 0, _ => none
  | n + 1, ts => do
    let (condition, rest) ← list? n ts
    let (consequence, rest) ← list? n (← expect "then" rest)
    match rest with
    | token :: after =>
      if token.bare? = some "elif" then do
        let (alternative, rest) ← branch? n after
        return (.branch condition consequence alternative, rest)
      else if token.bare? = some "else" then do
        let (alternative, rest) ← list? n after
        return (.branch condition consequence alternative, ← expect "fi" rest)
      else return (.branch condition consequence .nothing, ← expect "fi" rest)
    | [] => none

/-- The rest of a loop through words. -/
def each? : Nat → List Token → Option (Command × List Token)
  | 0, _ => none
  | n + 1, ts =>
    match ts with
    | variableToken :: rest => do
      let name ← variableToken.bare?
      let rest := skipLines rest
      let (words, rest) := match rest with
        | token :: after =>
          if token.bare? = some "in" then
            let (ws, rest) := loopWords after
            (some ws, rest)
          else (none, rest)
        | [] => (none, [])
      let rest := match rest with
        | .operator op :: after => if op = ";" ∨ op = "\n" then skipLines after else rest
        | _ => rest
      let (body, rest) ← list? n (← expect "do" rest)
      return (.each name words body, ← expect "done" rest)
    | [] => none

/-- A command with those that it is piped to. -/
def pipeline? : Nat → List Token → Option (Command × List Token)
  | 0, _ => none
  | n + 1, ts => do
    let (left, rest) ← command? n ts
    match rest with
    | .operator op :: after =>
      if op = "|" then do
        let (right, rest) ← pipeline? n (skipLines after)
        return (.pipe left right, rest)
      else return (left, rest)
    | _ => return (left, rest)

/-- What follows a command that others depend on. -/
def joined? : Nat → Command → List Token → Option (Command × List Token)
  | 0, _, _ => none
  | n + 1, left, ts =>
    match ts with
    | .operator op :: after =>
      if op = "&&" then do
        let (right, rest) ← pipeline? n (skipLines after)
        joined? n (.both left right) rest
      else if op = "||" then do
        let (right, rest) ← pipeline? n (skipLines after)
        joined? n (.either left right) rest
      else some (left, ts)
    | _ => some (left, ts)

/-- A list of commands up to a word or an operator that ends it. -/
def list? : Nat → List Token → Option (Command × List Token)
  | 0, _ => none
  | n + 1, ts =>
    match skipLines ts with
    | [] => some (.nothing, [])
    | token :: rest =>
      if (token.bare?).any closers.contains || token = .operator ")" then
        some (.nothing, token :: rest)
      else do
        let (first, rest) ← pipeline? n (token :: rest)
        let (first, rest) ← joined? n first rest
        match rest with
        | .operator op :: after =>
          if op = ";" ∨ op = "&" ∨ op = "\n" then do
            let (second, rest) ← list? n after
            return (.sequence first second, rest)
          else return (first, rest)
        | _ => return (first, rest)

end

/-- The commands up to the end of a line, and what comes after it. -/
def lineFrom : Nat → List Token → Option (Command × List Token)
  | 0, _ => none
  | n + 1, ts => do
    let (first, rest) ← pipeline? n ts
    let (first, rest) ← joined? n first rest
    match rest with
    | [] => return (first, [])
    | .operator op :: after =>
      if op = "\n" then return (first, after)
      else if op = ";" ∨ op = "&" then
        match after with
        | [] => return (first, [])
        | .operator next :: rest =>
          if next = "\n" then return (first, rest)
          else do
            let (second, rest) ← lineFrom n after
            return (.sequence first second, rest)
        | _ => do
          let (second, rest) ← lineFrom n after
          return (.sequence first second, rest)
      else none
    | _ => none

/-- The command on the next **line** of a script; nothing if it cannot be read. -/
def line? (ts : List Token) : Option (Command × List Token) :=
  lineFrom (8 * (ts.length + 1)) ts

end ScriptTree.Shell
