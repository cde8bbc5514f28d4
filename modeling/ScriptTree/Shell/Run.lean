import ScriptTree.FileSystem.Update
import ScriptTree.Shell.Command
import ScriptTree.Shell.Program

/-!
# Running shell scripts

A script runs line by line on a **state**: the file system with the working directory, the
arguments, the variables, the status of the last command, the input and what was printed. A script
can end early, by itself or by a signal that it sends to itself.
-/

namespace ScriptTree.Shell

structure State where
  fs : FileSystem
  name : Text
  args : List Text
  assigned : List (Text × Text) := []
  status : Int := 0
  input : Bytes := []
  output : Bytes := []

/-- How a run **goes on**: with the next command, not at all, or not at all by a signal. -/
inductive Flow where
  | next
  | exit
  | killed (signal : Nat)
  deriving DecidableEq, Repr

/-- The number that stands for the running shell itself. -/
def ownNumber : Text := "4242"

/-- Signals by name. -/
def signals : List (String × Nat) :=
  [("HUP", 1), ("INT", 2), ("QUIT", 3), ("ILL", 4), ("TRAP", 5), ("ABRT", 6), ("BUS", 7), ("FPE", 8),
    ("KILL", 9), ("USR1", 10), ("SEGV", 11), ("USR2", 12), ("PIPE", 13), ("ALRM", 14), ("TERM", 15)]

/-- Signals that do nothing to a program that does not ask for them. -/
def harmless : List Nat := [0, 17, 18, 23, 28]

/-- The signal that a text names, by number or by name. -/
def signalOf? (t : Text) : Option Nat :=
  (numberOf? t).or ((signals.find? fun s => Text.ofString s.1 = t).map (·.2))

/-! ### Values -/

/-- The value of a parameter. -/
def State.parameter (s : State) (name : Text) : Text :=
  match numberOf? name with
  | some 0 => s.name
  | some (n + 1) => s.args.getD n []
  | none =>
    if name = "#" then Text.ofNat s.args.length
    else if name = "?" then Text.ofInt s.status
    else if name = "$" then ownNumber
    else if name = "@" ∨ name = "*" then Text.join " " s.args
    else (s.assigned.lookup name).getD []

/-- Whether a code point separates fields. -/
def isFieldGap (c : CodePoint) : Bool := isGap c || c = .scalar '\n'

/-- The fields so far, the last one still open if it is there. -/
structure Fields where
  closed : List Text := []
  opened : Option Text := none

namespace Fields

def add (f : Fields) (t : Text) : Fields := { f with opened := some (f.opened.getD [] ++ t) }

def close (f : Fields) : Fields :=
  match f.opened with
  | some t => ⟨f.closed ++ [t], none⟩
  | none => f

/-- Text added with gaps in it separating fields. -/
def addSplit (f : Fields) (t : Text) : Fields :=
  t.foldl (fun f c => if isFieldGap c then f.close else f.add [c]) f

/-- Fields added, the first one to the open field; the last one stays open. -/
def addAll (f : Fields) : List Text → Fields
  | [] => f
  | [t] => f.add t
  | t :: rest => addAll (f.add t).close rest

def all (f : Fields) : List Text := f.close.closed

end Fields

/-! ### Built-in commands -/

/-- Runs a program on a state. -/
def callProgram (p : Program) (args : List Text) (s : State) : State × Flow :=
  let o := p s.fs args s.input
  ({ s with output := s.output ++ o.output, status := o.status }, .next)

/-- Sends a signal; to itself, it may end the run. -/
def kill (args : List Text) (s : State) : State × Flow :=
  let (signal, targets) : Option Nat × List Text :=
    match args with
    | first :: rest =>
      if first = "-s" then (signalOf? (rest.headD []), rest.tail)
      else match first with
        | .scalar '-' :: t => (signalOf? t, rest)
        | _ => (some 15, args)
    | [] => (none, [])
  match signal with
  | some n =>
    if targets.contains ownNumber ∧ !harmless.contains n then (s, .killed n)
    else ({ s with status := if targets.contains ownNumber then 0 else 1 }, .next)
  | none => ({ s with status := 2 }, .next)

def exit (args : List Text) (s : State) : State × Flow :=
  match args with
  | [] => (s, .exit)
  | t :: _ =>
    match numberOf? t with
    | some n => ({ s with status := ((n % 256 : Nat) : Int) }, .exit)
    | none => ({ s with status := 2 }, .exit)

def cd (args : List Text) (s : State) : State × Flow :=
  match s.fs.stat (Path.ofText (args.headD ".")) with
  | .ok (l, .directory) => ({ s with fs := { s.fs with cwd := l }, status := 0 }, .next)
  | _ => ({ s with status := 2 }, .next)

def shift (args : List Text) (s : State) : State × Flow :=
  let n := ((args.head?).bind numberOf?).getD 1
  if n ≤ s.args.length then ({ s with args := s.args.drop n, status := 0 }, .next)
  else ({ s with status := 2 }, .exit)

/-- Calls a command by name: one of the shell, or a program of the host. -/
def call (name : Text) (args : List Text) (s : State) : State × Flow :=
  if name = "exit" then exit args s
  else if name = "kill" then kill args s
  else if name = "cd" then cd args s
  else if name = "shift" then shift args s
  else if name = ":" ∨ name = "set" ∨ name = "trap" ∨ name = "export" then
    ({ s with status := 0 }, .next)
  else if name = "pwd" then callProgram (fun fs _ _ => prints fs.here.text) args s
  else if name = "echo" then callProgram echoEscaped args s
  else match program? name with
    | some p => callProgram p args s
    | none => ({ s with status := 127 }, .next)

/-! ### Redirections -/

/-- Where output goes in the end. -/
inductive Sink where
  | shown
  | hidden
  | file (p : Path) (add : Bool)

/-- Writes output where it goes; the status says whether that worked. -/
def deliver (sink : Sink) (output : Bytes) (s : State) : State :=
  match sink with
  | .shown => { s with output := s.output ++ output }
  | .hidden => s
  | .file p add =>
    let before := match s.fs.read p with
      | .ok bytes => if add then bytes else []
      | .error _ => []
    match s.fs.write p (before ++ output) with
    | .ok fs => { s with fs }
    | .error _ => { s with status := 2 }

/-! ### Commands -/

mutual

/-- The fields of a word, and the state after the scripts in it have run. -/
def expand : Nat → Word → Fields → State → Fields × State
  | 0, _, f, s => (f, s)
  | _ + 1, [], f, s => (f, s)
  | n + 1, piece :: rest, f, s =>
    match piece with
    | .plain t => expand n rest (f.add t) s
    | .quoted t => expand n rest (f.add t) s
    | .parameter name quoted =>
      let f :=
        if name = "@" ∧ quoted then f.addAll s.args
        else if quoted then f.add (s.parameter name)
        else f.addSplit (s.parameter name)
      expand n rest f s
    | .substitution script quoted =>
      let (inner, _) := runText n (tokens script) { s with output := [] }
      let value := (textOf inner.output).dropEnd (· = .scalar '\n')
      let f := if quoted then f.add value else f.addSplit value
      expand n rest f { s with status := inner.status }

def expandAll : Nat → List Word → State → List Text × State
  | 0, _, s => ([], s)
  | _ + 1, [], s => ([], s)
  | n + 1, w :: rest, s =>
    let (f, s) := expand n w {} s
    let (fields, s) := expandAll n rest s
    (f.all ++ fields, s)

def assign : Nat → List (Text × Word) → State → State
  | 0, _, s => s
  | _ + 1, [], s => s
  | n + 1, (name, w) :: rest, s =>
    let (f, s) := expand n w {} s
    let value := Text.join " " f.all
    assign n rest { s with assigned := (name, value) :: s.assigned }

/-- Where redirections lead the output, and the state with the input they give. -/
def redirect : Nat → List Redirection → Sink → State → Sink × State
  | 0, _, sink, s => (sink, s)
  | _ + 1, [], sink, s => (sink, s)
  | n + 1, r :: rest, sink, s =>
    match r with
    | .toStream stream target =>
      redirect n rest (if stream = 1 ∧ target ≠ 1 then .hidden else sink) s
    | .toFile stream add w =>
      let (f, s) := expand n w {} s
      let name := Text.join " " f.all
      let sink :=
        if stream ≠ 1 then sink
        else if name = "/dev/null" then .hidden
        else .file (Path.ofText name) add
      redirect n rest sink s
    | .fromFile w =>
      let (f, s) := expand n w {} s
      let input := match s.fs.read (Path.ofText (Text.join " " f.all)) with
        | .ok bytes => bytes
        | .error _ => []
      redirect n rest sink { s with input }

/-- Runs a **command**; `n` bounds the number of steps. -/
def run : Nat → Command → State → State × Flow
  | 0, _, s => (s, .exit)
  | n + 1, command, s =>
    match command with
    | .nothing => (s, .next)
    | .simple assignments words redirections =>
      let (fields, s) := expandAll n words s
      match fields with
      | [] =>
        let s := assign n assignments { s with status := 0 }
        let (sink, s) := redirect n redirections .shown s
        (deliver sink [] s, .next)
      | name :: args =>
        let (sink, inner) := redirect n redirections .shown (assign n assignments s)
        let (after, flow) := call name args { inner with output := [] }
        let s := { after with output := s.output, assigned := s.assigned, input := s.input }
        (deliver sink after.output s, flow)
    | .pipe left right =>
      match run n left { s with output := [] } with
      | (after, .killed signal) => (after, .killed signal)
      | (after, _) =>
        match run n right { s with fs := { after.fs with cwd := s.fs.cwd }, input := after.output } with
        | (last, .killed signal) => (last, .killed signal)
        | (last, _) =>
          ({ s with
              fs := { last.fs with cwd := s.fs.cwd }
              output := last.output
              status := last.status }, .next)
    | .negate c =>
      match run n c s with
      | (s, .next) => ({ s with status := if s.status = 0 then 1 else 0 }, .next)
      | ended => ended
    | .both left right =>
      match run n left s with
      | (s, .next) => if s.status = 0 then run n right s else (s, .next)
      | ended => ended
    | .either left right =>
      match run n left s with
      | (s, .next) => if s.status = 0 then (s, .next) else run n right s
      | ended => ended
    | .sequence first second =>
      match run n first s with
      | (s, .next) => run n second s
      | ended => ended
    | .branch condition consequence alternative =>
      match run n condition s with
      | (s, .next) =>
        if s.status = 0 then run n consequence s
        else run n alternative { s with status := 0 }
      | ended => ended
    | .each name words body =>
      let (values, s) := match words with
        | some ws => expandAll n ws s
        | none => (s.args, s)
      runEach n name values body { s with status := 0 }
    | .loop expected condition body =>
      match run n condition s with
      | (s, .next) =>
        if (s.status = 0) = expected then
          match run n body s with
          | (s, .next) => run n (.loop expected condition body) s
          | ended => ended
        else ({ s with status := 0 }, .next)
      | ended => ended
    | .subshell body =>
      match run n body s with
      | (after, .killed signal) => (after, .killed signal)
      | (after, _) =>
        ({ s with
            fs := { after.fs with cwd := s.fs.cwd }
            output := after.output
            status := after.status }, .next)

/-- Runs a body once for each value of a variable. -/
def runEach : Nat → Text → List Text → Command → State → State × Flow
  | 0, _, _, _, s => (s, .exit)
  | _ + 1, _, [], _, s => (s, .next)
  | n + 1, name, value :: rest, body, s =>
    match run n body { s with assigned := (name, value) :: s.assigned } with
    | (s, .next) => runEach n name rest body s
    | ended => ended

/-- Runs the lines of a **script**; one that cannot be read ends it. -/
def runText : Nat → List Token → State → State × Flow
  | 0, _, s => (s, .exit)
  | n + 1, ts, s =>
    match skipLines ts with
    | [] => (s, .next)
    | token :: rest =>
      match line? (token :: rest) with
      | none => ({ s with status := 2 }, .exit)
      | some (command, rest) =>
        match run n command s with
        | (s, .next) => runText n rest s
        | ended => ended

end

/-- The number of steps after which a run is given up. -/
def stepLimit : Nat := 100000

end ScriptTree.Shell
