import ScriptTree.Build.Basic
import ScriptTree.Shell.Run

/-!
# The host

What programs there are to **start**: some small ones by name, a shell, and executable scripts that
name their interpreter in their first line.
-/

namespace ScriptTree.Host

/-- The directories in which programs are found. -/
def programDirectories : List Text := ["/bin/", "/usr/bin/"]

def shellNames : List Text := ["sh", "dash", "bash"]

/-- The end of a run of the shell. -/
def finished (r : Shell.State × Shell.Flow) (fs : FileSystem) : Finished :=
  let status : Int := match r.2 with
    | .killed signal => -(signal : Int)
    | _ => r.1.status
  { status, output := r.1.output, fileSystem := { r.1.fs with cwd := fs.cwd } }

def runScript (fs : FileSystem) (name script : Text) (args : List Text) : Finished :=
  finished (Shell.runText Shell.stepLimit (Shell.tokens script) { fs, name, args }) fs

/-- The shell: it runs a text that is given, or a file. -/
def shell (fs : FileSystem) : List Text → Finished
  | [] => ⟨0, [], fs⟩
  | first :: rest =>
    if first = "-c" then runScript fs (rest.tail.headD "sh") (rest.headD []) (rest.drop 2)
    else if first.startsWith "-" then shell fs rest
    else match fs.read (Path.ofText first) with
      | .ok bytes => runScript fs first (Shell.textOf bytes) rest
      | .error _ => ⟨2, [], fs⟩

/-- The program of a plain name with its arguments. -/
def programNamed? (fs : FileSystem) (name : Text) (args : List Text) : Option Finished :=
  if shellNames.contains name then some (shell fs args)
  else (Shell.program? name).map fun p =>
    let o := p fs args []
    ⟨o.status, o.output, fs⟩

/-- The plain name of a program that is named by its path. -/
def plainName (name : Text) : Text :=
  match programDirectories.find? name.startsWith with
  | some directory => name.drop directory.length
  | none => name

/-- The program that an interpreter line names, with the arguments that stand there. -/
def interpreter? (fs : FileSystem) (line : Text) (args : List Text) : Option Finished :=
  let line := line.strip
  let program : Text := line.takeWhile fun c => !Shell.isGap c
  let argument : Text := Text.strip (line.drop program.length)
  let given := if argument.isEmpty then [] else [argument]
  if plainName program = "env" then
    programNamed? fs (plainName argument) args
  else if programDirectories.any program.startsWith then
    programNamed? fs (plainName program) (given ++ args)
  else none

/-- Starts an executable file. -/
def execute (fs : FileSystem) (name : Text) (args : List Text) (content : Bytes) :
    Except OsError Finished :=
  match Shell.textOf content with
  | .scalar '#' :: .scalar '!' :: rest =>
    match interpreter? fs (rest.takeWhile (· ≠ .scalar '\n')) (name :: args) with
    | some f => .ok f
    | none => .error ⟨.notFound, name⟩
  | _ => .error ⟨.notExecutable, name⟩

/-- **Starts** a program by name or by path. -/
def launch : Launcher := fun fs name args =>
  if !name.contains (.scalar '/') then
    match programNamed? fs name args with
    | some f => .ok f
    | none => .error ⟨.notFound, name⟩
  else match fs.stat (Path.ofText name) with
    | .ok (_, .file content true) => execute fs name args content
    | .ok _ => .error ⟨.denied, name⟩
    | .error cause =>
      if cause = .notFound ∧ plainName name ≠ name then
        match programNamed? fs (plainName name) args with
        | some f => .ok f
        | none => .error ⟨.notFound, name⟩
      else .error ⟨cause, name⟩

end ScriptTree.Host
