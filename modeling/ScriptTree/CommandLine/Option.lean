import ScriptTree.Text.Similar
import ScriptTree.Text.Snippet

/-!
# Options of a command line

Arguments of a command are **options** and operands. An option has a long name, and may have a short
one; short ones can be put together after one dash. Two dashes alone end the options.
-/

namespace ScriptTree.CommandLine

/-- An **option**. -/
inductive Name where
  | out
  | help
  | version
  deriving DecidableEq, Repr

def Name.takesValue : Name → Bool
  | .out => true
  | _ => false

/-- What is wrong with a file or directory that is named. -/
inductive PlaceFault where
  | fileMissing
  | fileIsDirectory
  | directoryIsFile
  deriving DecidableEq, Repr

/-- What can be **wrong** with arguments. -/
inductive UsageError where
  | noSuchOption (name : Text) (near : List Text)
  | noSuchCommand (name : Text) (near : List Text)
  | needsValue (name : Text)
  | takesNoValue (name : Text)
  | missingArgument (name : Text)
  | missingCommand
  | badPlace (parameter place : Text) (fault : PlaceFault)
  | extraArguments (arguments : List Text)
  deriving DecidableEq, Repr

/-- A hint at names that may have been meant. -/
def hint : List Text → Text
  | [] => []
  | [name] => (" Did you mean " : Text) ++ Snippet.quote name ++ ("?" : Text)
  | names =>
    (" (Did you mean one of: " : Text)
      ++ Text.join ", " ((names.mergeSort Text.atMost).map Snippet.quote)
      ++ ("?)" : Text)

def PlaceFault.message (place : Text) : PlaceFault → Text
  | .fileMissing => ("File " : Text) ++ Snippet.quote place ++ (" does not exist." : Text)
  | .fileIsDirectory => ("File " : Text) ++ Snippet.quote place ++ (" is a directory." : Text)
  | .directoryIsFile => ("Directory " : Text) ++ Snippet.quote place ++ (" is a file." : Text)

/-- The **wording** of what is wrong. -/
def UsageError.message : UsageError → Text
  | .noSuchOption name near =>
    ("No such option " : Text) ++ Snippet.quote name ++ ("." : Text) ++ hint near
  | .noSuchCommand name near =>
    ("No such command " : Text) ++ Snippet.quote name ++ ("." : Text) ++ hint near
  | .needsValue name => ("Option " : Text) ++ Snippet.quote name ++ (" requires an argument." : Text)
  | .takesNoValue name =>
    ("Option " : Text) ++ Snippet.quote name ++ (" does not take a value." : Text)
  | .missingArgument name => ("Missing argument '" : Text) ++ name ++ ("'." : Text)
  | .missingCommand => "Missing command."
  | .badPlace parameter place fault =>
    ("Invalid value for " : Text) ++ parameter ++ (": " : Text) ++ fault.message place
  | .extraArguments arguments =>
    ("Got unexpected extra argument" : Text) ++ (if arguments.length = 1 then [] else "s")
      ++ (" (" : Text) ++ Text.join " " arguments ++ (")" : Text)

/-- The **options** that a command knows: by long names and by short ones. Unknown ones may count as
operands, and operands may end the options. -/
structure OptionSet where
  long : List (Text × Name)
  short : List (CodePoint × Name)
  keepUnknown : Bool
  mixed : Bool

/-- What was **read**: the options in order with their values, and the operands. -/
structure Reading where
  options : List (Name × Text) := []
  operands : List Text := []
  deriving Repr

namespace Reading

def addOption (r : Reading) (name : Name) (value : Text) : Reading :=
  { r with options := r.options ++ [(name, value)] }

def addOperands (r : Reading) (ts : List Text) : Reading :=
  { r with operands := r.operands ++ ts }

/-- The value of an option; of several the last. -/
def value? (r : Reading) (name : Name) : Option Text :=
  (r.options.reverse.find? (·.1 = name)).map (·.2)

end Reading

namespace OptionSet

/-- A text cut at its first equals sign. -/
def cutValue (argument : Text) : Text × Option Text :=
  let name := argument.takeWhile (· ≠ .scalar '=')
  if name.length < argument.length then (name, some (argument.drop (name.length + 1)))
  else (name, none)

/-- An option written in full, with the value it was given, and the arguments that are left. -/
def readLong (name : Name) (written : Text) (value : Option Text) (r : Reading)
    (rest : List Text) : Except UsageError (Reading × List Text) :=
  if name.takesValue then
    match value, rest with
    | some v, _ => .ok (r.addOption name v, rest)
    | none, v :: rest => .ok (r.addOption name v, rest)
    | none, [] => .error (.needsValue written)
  else if value.isSome then .error (.takesNoValue written)
  else .ok (r.addOption name [], rest)

/-- Options written with single letters after one dash; `unknown` are the letters not known so
far. -/
def readShort (s : OptionSet) (unknown : Text) (r : Reading) (rest : List Text) :
    Text → Except UsageError (Reading × List Text)
  | [] =>
    .ok (if unknown.isEmpty then r else r.addOperands [.scalar '-' :: unknown], rest)
  | letter :: letters =>
    match s.short.lookup letter with
    | none =>
      if s.keepUnknown then readShort s (unknown ++ [letter]) r rest letters
      else .error (.noSuchOption [.scalar '-', letter] [])
    | some name =>
      if name.takesValue then do
        let value := if letters.isEmpty then none else some letters
        let (r, rest) ← readLong name [.scalar '-', letter] value r rest
        return (if unknown.isEmpty then r else r.addOperands [.scalar '-' :: unknown], rest)
      else readShort s unknown (r.addOption name []) rest letters

/-- One argument that looks like an option. -/
def readOption (s : OptionSet) (argument : Text) (r : Reading) (rest : List Text) :
    Except UsageError (Reading × List Text) :=
  let (name, value) := cutValue argument
  match s.long.lookup name with
  | some option => readLong option name value r rest
  | none =>
    if !argument.startsWith "--" then s.readShort [] r rest (argument.drop 1)
    else if s.keepUnknown then .ok (r.addOperands [argument], rest)
    else .error (.noSuchOption name (Text.closest name (s.long.map (·.1))))

/-- Reads arguments; `n` bounds their number. -/
def readFrom (s : OptionSet) : Nat → Reading → List Text → Except UsageError Reading
  | 0, r, rest => .ok (r.addOperands rest)
  | _ + 1, r, [] => .ok r
  | n + 1, r, argument :: rest =>
    if argument = "--" then .ok (r.addOperands rest)
    else if argument.startsWith "-" ∧ 1 < argument.length then do
      let (r, rest) ← s.readOption argument r rest
      s.readFrom n r rest
    else if s.mixed then s.readFrom n (r.addOperands [argument]) rest
    else .ok (r.addOperands (argument :: rest))

/-- The **options and operands** in arguments. -/
def read (s : OptionSet) (arguments : List Text) : Except UsageError Reading :=
  s.readFrom arguments.length {} arguments

end OptionSet

end ScriptTree.CommandLine
