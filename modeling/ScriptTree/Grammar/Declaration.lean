import ScriptTree.Grammar.Class

/-!
# Declarations

Variables, and the declarations that only typed scripts have: interfaces, type aliases, enums,
namespaces, aliases of imported names, and declarations of what exists elsewhere.
-/

namespace ScriptTree.Grammar

open Rule

variable (g : Grammar)

/-! ### Variables -/

/-- A variable with its type and its initial value. -/
def declarator : Rule :=
  node "variable_declarator" (seq
    [field .name (g.read .pattern), opt (g.whenTyped (seq [sameLine, mark "!", ahead (mark ":")])),
      g.optTyped g.typeAnnotation, opt g.initializer])

def variableList (kind : String) (words : List String) : Rule :=
  node kind (do
    let declared ← seq [oneWord words, separated (mark ",") g.declarator]
    let hasValue := declared.getLast?.any fun n => n.hasToken ["="]
    let ending ← g.semicolon hasValue
    return declared ++ ending)

/-- Variables declared by `var`. -/
def oldVariables : Rule := g.variableList "variable_declaration" ["var"]

/-- Variables declared by `let` or `const`. -/
def blockVariables : Rule := g.variableList "lexical_declaration" ["let", "const"]

/-! ### Types -/

/-- The interfaces that an interface extends. -/
def extendsTypes : Rule :=
  node "extends_type_clause" (seq [word "extends", separated (mark ",") g.namedType])

def interface : Rule :=
  node "interface_declaration" (seq
    [word "interface", field .name typeName, opt g.typeParameters, opt g.extendsTypes,
      field .body (g.typeBody "interface_body")])

def typeAlias : Rule :=
  node "type_alias_declaration" (seq
    [word "type", sameLine, field .name typeName, opt g.typeParameters, mark "=",
      field .value (g.read .type), g.semicolon false])

def enumMember : Rule := do
  let name ← field .name g.propertyName
  alt [extend "enum_assignment" name g.initializer, pure name]

def enum : Rule :=
  node "enum_declaration" (seq
    [opt (word "const"), word "enum", field .name identifier,
      field .body
        (node "enum_body" (seq [mark "\x7b", commaList g.enumMember, mark "\x7d"]))])

/-! ### Namespaces -/

/-- A name with properties after it. -/
def nestedName : Rule :=
  chain identifier fun before =>
    extend "nested_identifier" (before.map (·.inRole .object))
      (seq [mark ".", field .property (anyName "property_identifier")])

/-- A **namespace** or a module described by its name. -/
def moduleBlock : Rule :=
  alt
    [node "internal_module" (seq [word "namespace", sameLine, field .name nestedName,
      field .body (g.read .block)]),
      node "module" (seq [word "module", sameLine, field .name nestedName,
        field .body (g.read .block)]),
      node "module" (seq [word "module", sameLine, field .name string,
        opt (field .body (g.read .block))])]

/-- Another name for a name. -/
def importAlias : Rule :=
  node "import_alias" (seq
    [word "import", identifier, mark "=", nestedName, g.semicolon false])

/-! ### Any declaration -/

/-- A declaration that plain scripts have as well. -/
def plainDeclaration : Rule := do
  match ← peekWord with
  | "var" => g.oldVariables
  | "let" => g.blockVariables
  | "const" => g.blockVariables
  | "class" => g.classDeclaration
  | "function" => g.functionDeclaration
  | "async" => g.functionDeclaration
  | _ => if (← upcoming).head? = some '@' then g.classDeclaration else failure

/-- A declaration that only typed scripts have, apart from those of what exists elsewhere. -/
def typedDeclaration : Rule := do
  match ← peekWord with
  | "const" => g.enum
  | "enum" => g.enum
  | "function" => g.functionSignature
  | "async" => g.functionSignature
  | "interface" => g.interface
  | "type" => g.typeAlias
  | "abstract" => g.abstractClass
  | "namespace" => g.moduleBlock
  | "module" => g.moduleBlock
  | "import" => g.importAlias
  | _ => if (← upcoming).head? = some '@' then g.abstractClass else failure

/-- A declaration of what exists **elsewhere**. -/
def ambient : Rule :=
  node "ambient_declaration" (seq
    [word "declare", sameLine,
      alt [g.typedDeclaration, g.plainDeclaration, seq [word "global", g.read .block]]])

def declaration : Rule :=
  if g.typed then alt [g.plainDeclaration, g.typedDeclaration, g.ambient]
  else g.plainDeclaration

end ScriptTree.Grammar
