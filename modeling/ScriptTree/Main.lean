import ScriptTree.CommandLine.Basic
import ScriptTree.Host

/-!
# The program

The outermost layer: it takes a picture of the files below the working directory and of the packages
installed above it, lets the command line act on the picture, and carries the changes over to the
disk.
-/

namespace ScriptTree.Main

/-- The location that a path on the disk stands for. -/
def locationOf (path : String) : Location := (Path.ofText path).parts

/-- A location as a path on the disk. -/
def diskPath (l : Location) : String :=
  String.ofList (((⟨.root, l⟩ : Path).text.chars?).getD [])

/-- The entries at and below a directory. -/
partial def entriesBelow (directory : String) : IO (List (Location × Entry)) := do
  let mut found := [(locationOf directory, Entry.directory)]
  let here ← IO.FS.realPath directory
  for item in ← here.readDir do
    let path := directory ++ "/" ++ item.fileName
    if ← item.path.isDir then found := found ++ (← entriesBelow path)
    else if ← item.path.pathExists then
      let content ← IO.FS.readBinFile path
      found := found ++ [(locationOf path, .file content.toList false)]
  return found

/-- The entries of the directories of packages above a location. -/
def installedAbove (l : Location) : IO (List (Location × Entry)) := do
  let mut found := []
  for n in List.range l.length do
    let above := l.take n
    found := found ++ (if above.isEmpty then [] else [(above, Entry.directory)])
    let packages := diskPath (above ++ [("node_modules" : Text)])
    found := found ++ (← tryCatch (entriesBelow packages) fun _ => return [])
  return found

/-- A **picture** of the files that the program sees. -/
def picture : IO FileSystem := do
  let directory := (← IO.currentDir).toString
  let cwd := locationOf directory
  return ⟨(← installedAbove cwd) ++ (← entriesBelow directory), cwd⟩

/-- Carries the **changes** between two pictures over to the disk. -/
def carryOver (before after : FileSystem) : IO Unit := do
  for (l, e) in before.entries.reverse do
    if (after.entry? l).isNone then
      match e with
      | .directory => IO.FS.removeDir (diskPath l)
      | _ => IO.FS.removeFile (diskPath l)
  for (l, e) in after.entries do
    if !(before.entry? l == some e) then
      match e with
      | .directory => IO.FS.createDirAll (diskPath l)
      | .file content _ => IO.FS.writeBinFile (diskPath l) ⟨content.toArray⟩
      | .link _ => pure ()

/-- The variables of the environment that are looked at. -/
def environment : IO Environment := do
  let mut found := []
  for s in Setting.all do
    let name := s.variableName
    if let some value ← IO.getEnv (String.ofList (name.chars?.getD [])) then
      found := found ++ [(name, (value : Text))]
  return found

end ScriptTree.Main

open ScriptTree in
/-- Answers the arguments of the command line. -/
def main (arguments : List String) : IO UInt32 := do
  let before ← Main.picture
  let given ← Main.environment
  let (reply, after) :=
    (CommandLine.main Host.launch given (arguments.map Text.ofString)).run before
  Main.carryOver before after
  let out ← IO.getStdout
  out.write ⟨reply.childOutput.toArray⟩
  out.write ⟨(Shell.bytesOf reply.output).toArray⟩
  (← IO.getStderr).write ⟨(Shell.bytesOf reply.complaint).toArray⟩
  return UInt32.ofNat reply.code.toNat
