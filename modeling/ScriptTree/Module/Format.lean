import ScriptTree.Path.Basic

/-!
# Module formats and mechanisms

A file is written in one of two **formats**, told apart by the extension, and reached by one of
three **mechanisms**. The mechanism of a reference decides which format it must point at.
-/

namespace ScriptTree

/-- The **format** of a file: static imports and exports, or `require`. -/
inductive Format where
  | static
  | dynamic
  deriving DecidableEq, Repr

/-- How a file is **reached**: as the entry, by an import, or by `require`. -/
inductive Mechanism where
  | entry
  | imported
  | required
  deriving DecidableEq, Repr

def Mechanism.label : Mechanism → Text
  | .entry => "entry"
  | .imported => "import"
  | .required => "require"

namespace Format

def extension : Format → Text
  | .static => ".mjs"
  | .dynamic => ".cjs"

/-- The format that a reference made by a mechanism must point at. -/
def forMechanism : Mechanism → Format
  | .required => .dynamic
  | _ => .static

/-- Extensions of files that are always of the static format. -/
def staticExtensions : List Text := [".mjs", ".mts"]

/-- Extensions of files that are always of the dynamic format. -/
def dynamicExtensions : List Text := [".cjs", ".cts"]

/-- The format that a **name** fixes by its extension alone, in small or capital letters. -/
def ofName? (name : Text) : Option Format :=
  let lower := name.lowerAscii
  if dynamicExtensions.any lower.endsWith then some .dynamic
  else if staticExtensions.any lower.endsWith then some .static
  else none

end Format

end ScriptTree
