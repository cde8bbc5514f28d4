import ScriptTree.Json.File
import ScriptTree.Transform.Markup

/-!
# Configuration

A **setting** has a default. A configuration file in a project may set it, and a variable of the
environment goes before both, unless it is blank.
-/

namespace ScriptTree

/-- What can be **set**. -/
inductive Setting where
  | buildDirectory
  | runDirectory
  | program
  | factory
  | fragment
  deriving DecidableEq, Repr

namespace Setting

def all : List Setting := [.buildDirectory, .runDirectory, .program, .factory, .fragment]

/-- The section of the configuration file in which a setting stands. -/
def sectionName : Setting → Text
  | .buildDirectory => "paths"
  | .runDirectory => "paths"
  | .program => "runtime"
  | .factory => "jsx"
  | .fragment => "jsx"

def key : Setting → Text
  | .buildDirectory => "build_dir"
  | .runDirectory => "run_dir"
  | .program => "node"
  | .factory => "pragma"
  | .fragment => "fragment"

def default : Setting → Text
  | .buildDirectory => ".jbuild"
  | .runDirectory => ".jrun"
  | .program => "node"
  | .factory => "React.createElement"
  | .fragment => "React.Fragment"

/-- The variable of the environment for a setting. -/
def variableName : Setting → Text
  | .buildDirectory => "XNR_PATHS_BUILD_DIR"
  | .runDirectory => "XNR_PATHS_RUN_DIR"
  | .program => "XNR_RUNTIME_NODE"
  | .factory => "XNR_JSX_PRAGMA"
  | .fragment => "XNR_JSX_FRAGMENT"

/-- The text that a JSON value gives for a setting. -/
def inJson? (s : Setting) (value : Json) : Option Text :=
  ((value.field? s.sectionName).bind (·.field? s.key)).bind Json.text?

end Setting

abbrev Environment := List (Text × Text)

/-- A **configuration**: values for settings. -/
abbrev Config := List (Setting × Text)

namespace Config

def get? (c : Config) (s : Setting) : Option Text := c.lookup s

/-- The value of a setting that must be there. -/
def get (c : Config) (s : Setting) : Except Failure Text :=
  match c.get? s with
  | some value => .ok value
  | none => .error (.defect (.missingKey s.key))

def fileName : Text := ".xnr.json"

/-- The value of a variable, unless it is blank. -/
def setVariable? (environment : Environment) (s : Setting) : Option Text :=
  (environment.lookup s.variableName).filter fun t => !t.isAllSpace

/-- The **value** of a setting: from the environment, from the file, or the default. -/
def valueOf (environment : Environment) (file : Json) (s : Setting) : Text :=
  ((setVariable? environment s).or (s.inJson? file)).getD s.default

/-- The **configuration** of the project in a directory. -/
def load (fs : FileSystem) (environment : Environment) (root : Path) : Except Failure Config := do
  let file ← fs.json (root.child fileName)
  return Setting.all.map fun s => (s, valueOf environment file s)

/-- The configuration that a JSON value **gives**; an empty one gives none. -/
def ofJson? (value : Json) : Option Config :=
  if value.fields.isEmpty then none
  else some (Setting.all.filterMap fun s => (s.inJson? value).map (s, ·))

def markupNames (c : Config) : MarkupNames where
  factory := (c.get? .factory).getD Setting.factory.default
  fragment := (c.get? .fragment).getD Setting.fragment.default

end Config

end ScriptTree
