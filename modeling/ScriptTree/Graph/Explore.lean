import ScriptTree.Graph.Basic
import ScriptTree.Module.Classify
import ScriptTree.Module.Interpreter
import ScriptTree.Resolve.File
import ScriptTree.Transform.Basic

/-!
# Exploring from an entry

A graph is explored depth first from its entry. References that are still to be followed wait on a
stack, the last one of a file on top. `Graph.visit` takes one reference: it may lead to a file that
is known, or a file is loaded and its own references are put on the stack. Only so many paths can
lead to files, so loading ends.
-/

namespace ScriptTree

/-- A **reference** to follow: the path it names, the extension that is likely, the mechanism, and
where it stands. -/
structure Frame where
  rawPath : Path
  hint : Text
  mechanism : Mechanism
  specifier : Option Text := none
  referrer : Option Path := none

namespace Graph

/-! ### One file -/

/-- Reads a file, makes it plain and gives its **tree**. -/
def load (fs : FileSystem) (names : MarkupNames) (p : Path) :
    Except Failure SourceTree := do
  let text ← fs.readText p
  let plain ← Transform.plain names text (some p)
  Transform.readAt .parse .plain (stripInterpreter plain) (some p)

/-- The **format** of a file. A reference fixes the format of what it reaches. The entry is of the
format that its name fixes; else it is static if it imports anything or has static syntax. -/
def chooseFormat (mechanism : Mechanism) (p : Path) (tree : SourceTree) (edges : List Edge) :
    Format :=
  if mechanism ≠ .entry then Format.forMechanism mechanism
  else match Format.ofName? p.text with
    | some format => format
    | none =>
      if edges.any (·.mechanism = .imported) || hasModuleSyntax tree then .static else .dynamic

/-- The references of a file, the last one first. -/
def framesOf (p : Path) (hint : Text) (edges : List Edge) : List Frame :=
  ((edges.filter (·.isInternal)).map fun e =>
    let child := dependencyPath p.parent e.specifier
    { rawPath := child
      hint := if child.suffix.isEmpty then hint else child.suffix
      mechanism := e.mechanism
      specifier := some e.specifier
      referrer := some p : Frame }).reverse

/-! ### One reference -/

/-- The graph with the **conflict**, if there is one, between a known file and a reference to it. -/
def noteConflict (g : Graph) (known : Option SourceFile) (frame : Frame) : Graph :=
  match known with
  | none => g
  | some file =>
    if frame.mechanism = .entry ∨ Format.forMechanism frame.mechanism = file.format then g
    else
      { g with
        conflicts :=
          g.conflicts ++ [⟨file.path, file.format, frame.mechanism, frame.referrer, frame.specifier⟩] }

/-- The graph with a file that was reached by a reference, and the file's own references. -/
def addFile (g : Graph) (frame : Frame) (p : Path) (tree : SourceTree) (all : List Edge) :
    Graph × List Frame :=
  let edges := all.filter (!·.isBuiltin)
  let file : SourceFile :=
    { path := p
      rawPath := frame.rawPath
      hint := frame.hint
      mechanism := frame.mechanism
      format := chooseFormat frame.mechanism p tree all
      edges }
  let g := { g with files := g.files ++ [file], trees := g.trees ++ [(frame.rawPath, tree)] }
  (if frame.mechanism = .entry then { g with entry := some p } else g, framesOf p frame.hint edges)

/-- Follows one **reference**. If it leads to a new file, the file's references come with the
graph. -/
def visit (fs : FileSystem) (names : MarkupNames) (frame : Frame) (g : Graph) :
    Except Failure (Graph × Option (List Frame)) :=
  if (g.aliases.lookup frame.rawPath).isSome then
    .ok (g.noteConflict (g.lookup frame.rawPath) frame, none)
  else do
    let p ← fs.resolve frame.rawPath frame.hint frame.mechanism frame.specifier
    let g := { g with aliases := g.aliases ++ [(frame.rawPath, p)] }
    match g.file? p with
    | some file => return (g.noteConflict (some file) frame, none)
    | none =>
      let tree ← load fs names p
      let edges ← allDependencies tree
      let (g, frames) := g.addFile frame p tree edges
      return (g, some frames)

/-! ### All references -/

/-- Follows references until one leads to a new file; `onNew` goes on from there. -/
def drain (fs : FileSystem) (names : MarkupNames)
    (onNew : List Frame → Graph → Except Failure Graph) :
    List Frame → Graph → Except Failure Graph
  | [], g => .ok g
  | frame :: rest, g => do
    match ← visit fs names frame g with
    | (g, none) => drain fs names onNew rest g
    | (g, some frames) => onNew (frames ++ rest) g

/-- Follows **all** references, loading a bounded number of files. -/
def explore (fs : FileSystem) (names : MarkupNames) :
    Nat → List Frame → Graph → Except Failure Graph
  | 0 => drain fs names fun _ _ => .error (.defect .endless)
  | n + 1 => drain fs names (explore fs names n)

/-- The **graph** of the files that are reachable from an entry. -/
def build (fs : FileSystem) (names : MarkupNames) (entry : Path) :
    Except Failure Graph :=
  let p := Path.absolute fs.here entry
  explore fs names fs.fileBound [{ rawPath := p, hint := p.suffix, mechanism := .entry }] {}

end Graph

end ScriptTree
