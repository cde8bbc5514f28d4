import ScriptTree.FileSystem.OsError
import ScriptTree.Module.Format
import ScriptTree.Number.Numeral
import ScriptTree.Path.Normal
import ScriptTree.Text.Literal
import ScriptTree.Tree.Render

/-!
# Failures

Everything that can go wrong between reading an entry file and running its output, each with its
cause. Most failures are *reported*: they have a message for the person at the keyboard, which shows
paths from the working directory. The others are *defects* of the input that nothing foresees.
-/

namespace ScriptTree

inductive ReadCause where
  | os (error : OsError)
  | undecodable (fault : Utf8.Fault)
  deriving DecidableEq, Repr

inductive WriteCause where
  | os (error : OsError)
  | shared (first second : Path)
  | holdsEntry
  deriving DecidableEq, Repr

/-- The two readings of a script: before and after it is made plain. -/
inductive Stage where
  | transform
  | parse
  deriving DecidableEq, Repr

/-- Inputs that nothing foresees. -/
inductive Defect where
  | escape (fault : EscapeFault)
  | numeral (fault : NumeralFault)
  | undecodable (fault : Utf8.Fault)
  | unencodable (text : Text)
  | missingStatement (index : Int)
  | missingKey (key : Text)
  | outside (path root : Path)
  | emptyName (path : Path)
  | nul
  | endless
  deriving DecidableEq, Repr

/-- A **failure** and its cause. -/
inductive Failure where
  | resolution (mechanism : Mechanism) (path : Path) (specifier : Option Text)
  | read (path : Path) (cause : ReadCause)
  | write (path : Path) (cause : WriteCause)
  | malformed (stage : Stage) (path : Option Path) (line column : Nat) (description : Text)
  | namespaceUsed (path : Option Path) (line column : Nat)
  | start (program : Text) (error : OsError)
  | defect (d : Defect)
  deriving DecidableEq, Repr

namespace Failure

/-- The failure of writing edited text. -/
def ofRenderFault : RenderFault → Failure
  | .undecodable fault => .defect (.undecodable fault)
  | .missingStatement missing => .defect (.missingStatement missing.index)

end Failure

def ReadCause.message : ReadCause → Text
  | .os error => error.message
  | .undecodable fault => fault.message

def WriteCause.message (cwd : Path) : WriteCause → Text
  | .os error => error.message
  | .shared first second =>
    first.pretty cwd ++ (" and " : Text) ++ second.pretty cwd
      ++ (" would both be written here" : Text)
  | .holdsEntry => "refusing to clear a directory that contains the entry file"

namespace Stage

def label : Stage → Text
  | .transform => "Transform"
  | .parse => "Parse"

end Stage

/-- The place that a message names: a file, or the input itself. -/
def placeText (cwd : Path) (path : Option Path) (line column : Nat) : Text :=
  (path.map (·.pretty cwd)).getD ("<input>" : Text) ++ (":" : Text) ++ Text.ofNat line ++ (":" : Text)
    ++ Text.ofNat column

/-- The part of a text from its first lone surrogate half on. -/
def firstHalf (t : Text) : Nat × Text :=
  let before := t.takeWhile (·.char?.isSome)
  (before.length, (t.drop before.length).takeWhile (!·.char?.isSome))

/-- The name of a kind of defect in messages. -/
def Defect.label : Defect → Text
  | .escape .outOfRange => "ValueError"
  | .escape .tooLarge => "OverflowError"
  | .numeral _ => "ValueError"
  | .undecodable _ => "UnicodeDecodeError"
  | .unencodable _ => "UnicodeEncodeError"
  | .missingStatement _ => "IndexError"
  | .missingKey _ => "KeyError"
  | .outside _ _ => "ValueError"
  | .emptyName _ => "ValueError"
  | .nul => "ValueError"
  | .endless => "RecursionError"

def Defect.message : Defect → Text
  | .escape .outOfRange => "chr() arg not in range(0x110000)"
  | .escape .tooLarge => "Python int too large to convert to C int"
  | .numeral .tooManyDigits =>
    "Exceeds the limit (4300 digits) for integer string conversion; use sys.set_int_max_str_digits() to increase the limit"
  | .undecodable fault => fault.message
  | .unencodable text =>
    let (position, halves) := firstHalf text
    let which : Text :=
      if halves.length = 1 then
        ("character " : Text) ++ Snippet.quote halves ++ (" in position " : Text)
          ++ Text.ofNat position
      else
        ("characters in position " : Text) ++ Text.ofNat position ++ ("-" : Text)
          ++ Text.ofNat (position + halves.length - 1)
    ("'utf-8' codec can't encode " : Text) ++ which ++ (": surrogates not allowed" : Text)
  | .missingStatement _ => "list index out of range"
  | .missingKey key => Snippet.quote key
  | .outside path root =>
    Snippet.quote path.text ++ (" is not in the subpath of " : Text) ++ Snippet.quote root.text
  | .emptyName path =>
    ("PosixPath(" : Text) ++ Snippet.quote path.text ++ (") has an empty name" : Text)
  | .nul => "embedded null byte"
  | .endless => "files without end"

/-- The **message** of a failure for someone in a working directory. -/
def Failure.message (cwd : Path) : Failure → Text
  | .resolution mechanism path specifier =>
    let target := path.pretty cwd
    let front := ("Bad " : Text) ++ mechanism.label ++ (" target: could not resolve " : Text)
    match specifier with
    | some s =>
      if s = [] ∨ s = target then front ++ target
      else front ++ ("'" : Text) ++ s ++ ("' (" : Text) ++ target ++ (")" : Text)
    | none => front ++ target
  | .read path cause =>
    ("Could not read " : Text) ++ path.pretty cwd ++ (": " : Text) ++ cause.message
  | .write path cause =>
    ("Could not write " : Text) ++ path.pretty cwd ++ (": " : Text) ++ cause.message cwd
  | .malformed stage path line column description =>
    stage.label ++ (" error in " : Text) ++ placeText cwd path line column ++ (": " : Text)
      ++ description
  | .namespaceUsed path line column =>
    ("Transform error in " : Text) ++ placeText cwd path line column
      ++ (": namespaces are not supported; use modules instead" : Text)
  | .start program error =>
    ("Could not start " : Text) ++ program ++ (": " : Text) ++ error.message
  | .defect d => d.message

end ScriptTree
