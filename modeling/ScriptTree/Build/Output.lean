import ScriptTree.FileSystem.Update
import ScriptTree.Failure

/-!
# Output directories

A build **acts** on a file system: it clears its output directory and writes files below it. What an
action did stays done when it fails later on.
-/

namespace ScriptTree

/-- An **action** on a file system: it may fail, and what it did until then stays. -/
abbrev Action := ExceptT Failure (StateM FileSystem)

namespace Action

/-- What a computation finds in the file system. -/
def find {α : Type} (f : FileSystem → Except Failure α) : Action α := do
  match f (← get) with
  | .ok a => return a
  | .error failure => throw failure

/-- A change of the file system; what the system says when it fails is turned into a failure. -/
def change (f : FileSystem → Except OsError FileSystem) (failed : OsError → Failure) :
    Action Unit := do
  match f (← get) with
  | .ok fs => set fs
  | .error e => throw (failed e)

end Action

/-- Refuses an output directory that **holds** the entry. -/
def checkOutput (output entry : Path) : Except Failure Unit :=
  if entry.isBelow output then .error (.write output .holdsEntry) else .ok ()

/-- **Clears** the output directory: it is removed, and made again when files are written. -/
def resetOutput (output entry : Path) : Action Unit := do
  Action.find fun _ => checkOutput output entry
  let fs ← get
  if fs.exists_ output then
    if fs.isDirectory output && !fs.isLink output then
      Action.change (·.removeTree output) fun e => .write output (.os e)
    else Action.change (·.unlink output) fun e => .write output (.os e)

/-- **Writes** a file with the directories above it. A text that has no bytes leaves the file
empty. -/
def writeOutput (target : Path) (content : Text) : Action Unit := do
  let failed (e : OsError) : Failure := .write target (.os e)
  Action.change (·.makeParents target.parent) failed
  match Utf8.encode? content with
  | .ok bytes => Action.change (·.write target bytes) failed
  | .error _ =>
    Action.change (·.write target []) failed
    throw (.defect (.unencodable content))

/-- Removes a directory tree as far as there is one. -/
def discardOutput (output : Path) : Action Unit :=
  modify fun fs =>
    match fs.removeTree output with
    | .ok fs => fs
    | .error _ => fs

end ScriptTree
