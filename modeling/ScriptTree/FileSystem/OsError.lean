import ScriptTree.Text.Snippet

/-!
# Errors of the operating system

An operation on files or programs fails for one of a few causes, each with a number and a wording
that messages show together with the path at fault.
-/

namespace ScriptTree

inductive OsCause where
  | notFound
  | notExecutable
  | denied
  | exists
  | notDirectory
  | isDirectory
  | tooManyLinks
  deriving DecidableEq, Repr

/-- A failing operation: its cause and the path at fault. -/
structure OsError where
  cause : OsCause
  path : Text
  deriving DecidableEq, Repr

namespace OsCause

def number : OsCause → Nat
  | .notFound => 2
  | .notExecutable => 8
  | .denied => 13
  | .exists => 17
  | .notDirectory => 20
  | .isDirectory => 21
  | .tooManyLinks => 40

def wording : OsCause → Text
  | .notFound => "No such file or directory"
  | .notExecutable => "Exec format error"
  | .denied => "Permission denied"
  | .exists => "File exists"
  | .notDirectory => "Not a directory"
  | .isDirectory => "Is a directory"
  | .tooManyLinks => "Too many levels of symbolic links"

end OsCause

def OsError.message (e : OsError) : Text :=
  ("[Errno " : Text) ++ Text.ofNat e.cause.number ++ ("] " : Text) ++ e.cause.wording
    ++ (": " : Text) ++ Snippet.quote e.path

end ScriptTree
