import ScriptTree.Build.Output
import ScriptTree.Config
import ScriptTree.ExitCode
import ScriptTree.Graph.Explore
import ScriptTree.Link.Basic

/-!
# Building and running

A **build** clears the output directory, explores the graph of an entry, plans the output and writes
every file linked. A **run** builds, starts a program on the written entry and removes the output
again. A script can also be converted on its own.
-/

namespace ScriptTree

/-- The configuration that is given, or that of the project in the working directory. -/
def configOr (given : Option Config) (environment : Environment) : Action Config :=
  match given with
  | some config => return config
  | none => Action.find fun fs => Config.load fs environment ⟨.relative, []⟩

/-- The text of a **linked file** as it is written. -/
def fileOutput (fs : FileSystem) (g : Graph) (plan : Plan) (file : SourceFile) :
    Except Failure Text := do
  let targets ← plan.specifierTargets g file
  let tree ← g.treeFor file
  return renderOutput (← link fs file.directory tree targets) file.format

/-- **Writes** one file of a graph. -/
def writeFile (g : Graph) (plan : Plan) (file : SourceFile) : Action Unit := do
  let text ← Action.find fun fs => fileOutput fs g plan file
  let target ← Action.find fun _ => plan.targetFor file.path
  writeOutput target text

/-- Writes files one after the other; one that fails does not keep the others from being written. -/
def writeFiles (g : Graph) (plan : Plan) : List SourceFile → Action Unit
  | [] => return
  | file :: rest => do
    let failed ← tryCatch (do writeFile g plan file; return none) (fun e => return some e)
    writeFiles g plan rest
    match failed with
    | some e => throw e
    | none => return

/-- Explores, plans and writes into a cleared directory; the path of the written entry. -/
def writeTree (config : Config) (entry output : Path) : Action (Option Path) := do
  let g ← Action.find fun fs => Graph.build fs config.markupNames entry
  match g.entry with
  | none => return none
  | some found =>
    let plan ← Action.find fun fs => Plan.make fs.here g output
    writeFiles g plan g.files
    return some (← Action.find fun _ => plan.targetFor found)

/-- A directory that is named, or the one of a setting. -/
def directoryOr (config : Config) (setting : Setting) (given : Option Text) : Action Path := do
  let fs ← get
  match given.filter (!·.isEmpty) with
  | some name => return Path.absolute fs.here (Path.ofText name)
  | none =>
    return Path.absolute fs.here (Path.ofText (← Action.find fun _ => config.get setting))

def buildInto (config : Config) (entry output : Path) : Action (Option Path) := do
  let entry := Path.absolute (← get).here entry
  resetOutput output entry
  writeTree config entry output

/-- **Builds** an entry; the path of the written entry. -/
def build (given : Option Config) (environment : Environment) (entry : Path)
    (output : Option Text) : Action (Option Path) := do
  let config ← configOr given environment
  buildInto config entry (← directoryOr config .buildDirectory output)

/-- How a program **ended**: its status, negative for a signal, what it printed, and the file system
it left behind. -/
structure Finished where
  status : Int
  output : Bytes
  fileSystem : FileSystem

/-- What starts programs with arguments. -/
abbrev Launcher := FileSystem → Text → List Text → Except OsError Finished

/-- Builds and starts the program on the written entry; the exit code and what was printed. -/
def buildAndStart (launch : Launcher) (config : Config) (program : Text) (entry output : Path)
    (args : List Text) : Action (Int × Bytes) := do
  match ← buildInto config entry output with
  | none => return (1, [])
  | some written =>
    match launch (← get) program (written.text :: args) with
    | .ok finished =>
      set finished.fileSystem
      return (exitCode finished.status, finished.output)
    | .error e => throw (.start program e)

/-- **Runs** an entry; the output directory is removed however that ends. -/
def run (launch : Launcher) (given : Option Config) (environment : Environment) (entry : Path)
    (args : List Text) (output : Option Text) : Action (Int × Bytes) := do
  let config ← configOr given environment
  let output ← directoryOr config .runDirectory output
  let program ← Action.find fun _ => config.get .program
  Action.find fun fs => checkOutput output (Path.absolute fs.here entry)
  tryFinally (buildAndStart launch config program entry output args) (discardOutput output)

/-- **Converts** one text that stands for the file at a path: it is made plain, and its internal
specifiers get extensions. -/
def convert (fs : FileSystem) (config : Config) (text : Text) (path : Option Path) :
    Except Failure Text := do
  let path := path.map (Path.absolute fs.here)
  let plain ← Transform.plain config.markupNames text path
  let tree ← Transform.readAt .parse .plain (stripInterpreter plain) path
  link fs ((path.map (·.parent)).getD fs.here) tree []

end ScriptTree
