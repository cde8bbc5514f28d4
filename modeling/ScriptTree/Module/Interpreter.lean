import ScriptTree.Module.Format

/-!
# Interpreter lines

A script may start with a line that names its interpreter. It is taken off before the script is
read, and every file that is written starts with one. A static file also gets a `require` of its
own, unless it seems to make one.
-/

namespace ScriptTree

/-- The text without the line that names its **interpreter**; the end of that line stays. -/
def stripInterpreter (text : Text) : Text :=
  if text.startsWith "#!" then text.dropWhile (· ≠ .scalar '\n') else text

/-- The line that names the interpreter of the files that are written. -/
def outputHeader : Text := "#!/usr/bin/env node\n"

/-- The lines that make `require` known in a static file. -/
def requirePrelude : Text :=
  "import \x7b createRequire \x7d from 'node:module';\nconst require = createRequire(import.meta.url);\n"

/-- The text of a **written file**. -/
def renderOutput (text : Text) (format : Format) : Text :=
  if format = .static ∧ !Text.occursIn "createRequire" text then
    outputHeader ++ requirePrelude ++ text
  else outputHeader ++ text

end ScriptTree
