import ScriptTree.Build.Basic
import ScriptTree.CommandLine.Option

/-!
# The command line

There are two commands: one builds an entry and prints the path of what it wrote, the other runs an
entry and ends with the code of the program.
-/

namespace ScriptTree.CommandLine

/-- What a command **answers**: its exit code, what it prints, what a program that it starts prints,
and what it complains about. -/
structure Reply where
  code : Int := 0
  output : Text := []
  childOutput : Bytes := []
  complaint : Text := []

namespace Reply

/-- A complaint as it is shown. -/
def complains (code : Int) (message : Text) : Reply :=
  { code, complaint := ("Error: " : Text) ++ message }

/-- The answer to wrong arguments. -/
def ofUsage (e : UsageError) : Reply := complains 2 e.message

/-- The answer when a command fails. -/
def ofFailure (cwd : Path) : Failure → Reply
  | .malformed _ _ _ _ _ => complains 1 "syntax"
  | .defect d => complains 1 (d.label ++ (": " : Text) ++ d.message)
  | f => complains 1 (f.message cwd)

end Reply

/-! ### Options -/

def programOptions : OptionSet where
  long := [("--version", .version), ("--help", .help)]
  short := [(.scalar 'h', .help)]
  keepUnknown := false
  mixed := false

def buildOptions : OptionSet where
  long := [("--out", .out), ("--help", .help)]
  short := [(.scalar 'o', .out)]
  keepUnknown := false
  mixed := true

/-- The options of a command that runs: what follows the entry is for the program. -/
def runOptions : OptionSet := { buildOptions with keepUnknown := true, mixed := false }

/-! ### Parameters -/

/-- An entry must be an existing file. -/
def checkEntry (fs : FileSystem) (entry : Text) : Except UsageError Unit :=
  let faulty (f : PlaceFault) : Except UsageError Unit := .error (.badPlace "'ENTRY'" entry f)
  if entry.isEmpty then faulty .fileMissing
  else match fs.stat (Path.ofText entry) with
    | .error _ => faulty .fileMissing
    | .ok (_, .directory) => faulty .fileIsDirectory
    | .ok _ => .ok ()

/-- An output directory must not be a file. -/
def checkOut (fs : FileSystem) (out : Text) : Except UsageError Unit :=
  if fs.isFile (Path.ofText out) then
    .error (.badPlace "'--out' / '-o'" out .directoryIsFile)
  else .ok ()

/-- The **parameters** of a command: the entry, the other operands and the output directory. -/
structure Parameters where
  entry : Text
  operands : List Text
  out : Option Text

/-- The parameters that were read, each checked. -/
def parametersOf (fs : FileSystem) (r : Reading) : Except UsageError Parameters := do
  let out := r.value? .out
  if let some out := out then checkOut fs out
  match r.operands with
  | [] => throw (.missingArgument "ENTRY")
  | entry :: operands => do
    checkEntry fs entry
    return ⟨entry, operands, out⟩

/-! ### Commands -/

/-- A command that acts on the file system and always answers. -/
abbrev Answer := StateM FileSystem Reply

/-- The answer of an action. -/
def answerOf {α : Type} (action : Action α) (reply : α → Reply) : Answer := do
  match ← action.run with
  | .ok a => return reply a
  | .error f => return .ofFailure (← get).here f

def buildCommand (environment : Environment) (r : Reading) : Answer := do
  match parametersOf (← get) r with
  | .error e => return .ofUsage e
  | .ok p =>
    if !p.operands.isEmpty then return .ofUsage (.extraArguments p.operands)
    answerOf (build none environment (Path.ofText p.entry) p.out) fun
      | some written => { output := written.text ++ [.scalar '\n'] }
      | none => { code := 1 }

def runCommand (launch : Launcher) (environment : Environment) (r : Reading) : Answer := do
  match parametersOf (← get) r with
  | .error e => return .ofUsage e
  | .ok p =>
    answerOf (run launch none environment (Path.ofText p.entry) p.operands p.out)
      fun (code, childOutput) => { code, childOutput }

/-- A command with its options; asking for help ends it. -/
def commandWith (options : OptionSet) (arguments : List Text) (command : Reading → Answer) :
    Answer :=
  match options.read arguments with
  | .error e => return .ofUsage e
  | .ok r => if (r.value? .help).isSome then return {} else command r

def commandNames : List Text := ["build", "run"]

/-- What the options of the program itself lead to, if they end it. -/
def programReply (r : Reading) : Option Reply :=
  match r.options with
  | (.version, _) :: _ => some { output := "xnr, version 0.1.0\n" }
  | _ :: _ => some {}
  | [] => none

/-- The answer to a name that is no command. -/
def unknownCommand (name : Text) (arguments : List Text) : Reply :=
  let unknown : Reply := .ofUsage (.noSuchCommand name (Text.closest name commandNames))
  match programOptions.read (name :: arguments) with
  | .error e => .ofUsage e
  | .ok r => (programReply r).getD unknown

/-- The **answer** to arguments. -/
def main (launch : Launcher) (environment : Environment) (arguments : List Text) : Answer :=
  if arguments.isEmpty then return { code := 2 }
  else match programOptions.read arguments with
    | .error e => return .ofUsage e
    | .ok r =>
      match programReply r, r.operands with
      | some reply, _ => return reply
      | none, [] => return .ofUsage .missingCommand
      | none, name :: rest =>
        if name = "build" then commandWith buildOptions rest (buildCommand environment)
        else if name = "run" then commandWith runOptions rest (runCommand launch environment)
        else return unknownCommand name rest

end ScriptTree.CommandLine
