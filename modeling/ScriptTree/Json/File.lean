import ScriptTree.Failure
import ScriptTree.FileSystem.Lookup
import ScriptTree.Json.Reader

/-!
# JSON files

Configuration files and package manifests are read alike: a file that is missing or malformed says
nothing. Only bytes that are no text and integers with too many digits are not foreseen.
-/

namespace ScriptTree.FileSystem

def json (fs : FileSystem) (p : Path) : Except Failure Json :=
  match fs.read p with
  | .error _ => .ok .null
  | .ok bytes =>
    match Utf8.decode bytes with
    | .error fault => .error (.defect (.undecodable fault))
    | .ok cs =>
      match Json.read (Text.ofChars cs) with
      | .ok value => .ok value
      | .error .malformed => .ok .null
      | .error .tooManyDigits => .error (.defect (.numeral .tooManyDigits))

end ScriptTree.FileSystem
