import ScriptTree.Tree.Access

/-!
# Specifiers in trees

A specifier is written as a string, as a template, or as a template read raw; of a template, only
the text before its first substitution counts. This module finds specifiers in trees and writes them
back.
-/

namespace ScriptTree

/-- How a specifier is **written**. -/
inductive SpecifierForm where
  | string
  | template
  | raw
  deriving DecidableEq, Repr

/-- A specifier: its value, how it is written, the node, and the range of its text. -/
structure SpecifierNode where
  value : Text
  form : SpecifierForm
  node : Node
  start : Nat
  stop : Nat

namespace SourceTree

/-- The value of the literal text in a range. -/
def cookedRange (tree : SourceTree) (start stop : Nat) : Except Failure Text := do
  cooked (← tree.rangeText start stop)

/-- Whether a node is there, is of a kind and has a text. -/
def isWord (tree : SourceTree) (n : Option Node) (kind : String) (text : Text) :
    Except Failure Bool :=
  match n with
  | some node => if node.kind == kind then do return (← tree.nodeText node) == text else .ok false
  | none => .ok false

/-- Whether a node is there and has a text. -/
def hasText (tree : SourceTree) (n : Option Node) (text : Text) : Except Failure Bool :=
  match n with
  | some node => do return (← tree.nodeText node) == text
  | none => .ok false

/-- Whether a node is the property `raw` of `String`. -/
def isRawTag (tree : SourceTree) (n : Option Node) : Except Failure Bool :=
  match n with
  | some node =>
    if node.kind == "member_expression" then do
      if ← tree.isWord (node.child? .object) "identifier" "String" then
        tree.hasText (node.child? .property) "raw"
      else return false
    else .ok false
  | none => .ok false

/-- Whether a node is the property `require` of the property `main` of `require`. -/
def isMainRequire (tree : SourceTree) (n : Node) : Except Failure Bool :=
  if n.kind != "member_expression" then .ok false
  else match n.child? .object, n.child? .property with
    | some inner, some property =>
      if inner.kind != "member_expression" then .ok false
      else do
        if (← tree.nodeText property) ≠ ("require" : Text) then return false
        else if !(← tree.isWord (inner.child? .object) "identifier" "require") then return false
        else tree.hasText (inner.child? .property) "main"
    | _, _ => .ok false

end SourceTree

/-- The range of the first text of a template: up to its first substitution or its end. -/
def templateSegment (template : Node) : Nat × Nat :=
  let start := template.start + 1
  let stop :=
    match template.children.find? (·.kind == "template_substitution") with
    | some substitution => substitution.start
    | none => template.stop - 1
  (start, max start stop)

/-- The **specifier** that a node holds; a computed one is not known. -/
def readSpecifier (tree : SourceTree) (n : Option Node) : Except Failure (Option SpecifierNode) :=
  match n with
  | none => .ok none
  | some node =>
    if node.kind == "string" then do
      let (start, stop) := (node.start + 1, node.stop - 1)
      return some ⟨← tree.cookedRange start stop, .string, node, start, stop⟩
    else if node.kind == "template_string" then do
      let (start, stop) := templateSegment node
      return some ⟨← tree.cookedRange start stop, .template, node, start, stop⟩
    else if node.kind == "call_expression" then do
      if ← tree.isRawTag (node.child? .function) then
        match node.child? .arguments with
        | some template =>
          if template.kind == "template_string" then
            let (start, stop) := templateSegment template
            return some ⟨← tree.rangeText start stop, .raw, node, start, stop⟩
          else return none
        | none => return none
      else return none
    else .ok none

/-- The text in place of a specifier's node that makes it another specifier; a template keeps what
follows its first text. -/
def writeSpecifier (tree : SourceTree) (spec : SpecifierNode) (value : Text) :
    Except Failure Text :=
  match spec.form with
  | .string => .ok (stringLiteral value)
  | .template => do
    let rest ← tree.rangeText spec.stop spec.node.stop
    return .scalar '\x60' :: templateText value ++ rest
  | .raw => do
    let template := (spec.node.child? .arguments).getD spec.node
    let tag := (spec.node.child? .function).getD spec.node
    let rest ← tree.rangeText spec.stop template.stop
    let front ← tree.rangeText spec.node.start tag.stop
    return front ++ .scalar '\x60' :: value ++ rest

/-- The first argument of a call, without comments. -/
def firstArgument (call : Node) : Option Node :=
  match call.child? .arguments with
  | some arguments => if arguments.kind == "arguments" then arguments.parts.head? else none
  | none => none

/-- What a call **loads**: the specifier and the mechanism, for `import`, `require` and the `require`
of the main module, which takes a string only. -/
def callTarget (tree : SourceTree) (call : Node) :
    Except Failure (Option (SpecifierNode × Mechanism)) :=
  match call.child? .function with
  | none => .ok none
  | some function => do
    let found (m : Mechanism) (argument : Option Node) :
        Except Failure (Option (SpecifierNode × Mechanism)) := do
      return (← readSpecifier tree argument).map (·, m)
    if function.kind == "import" then found .imported (firstArgument call)
    else if ← tree.isWord (some function) "identifier" "require" then
      found .required (firstArgument call)
    else if ← tree.isMainRequire function then
      found .required ((firstArgument call).filter (·.kind == "string"))
    else return none

end ScriptTree
