import ScriptTree.Grammar.Annotation

/-!
# Types

The types of typed scripts: names, literals, objects, tuples, functions, and the operators on types.
Types have no meaning when a script runs, but their range must be known to take them out, and the
names in them must be told from the names of values.
-/

namespace ScriptTree.Grammar

open Rule

variable (g : Grammar)

/-! ### Names -/

/-- Names with dots between them, nested to the left, of which the last two are still apart. -/
def nestNames : Node → List Node → List Node
  | front, dot :: name :: rest@(_ :: _) =>
    nestNames
      ⟨"nested_identifier", true, false, none, front.start, name.stop,
        [front, dot, { name with kind := "property_identifier" }]⟩
      rest
  | front, rest => front :: rest

/-- Turns a list of names with dots between them into the name of a type. -/
def asTypeName : List Node → List Node
  | [] => []
  | [only] => [{ only with kind := "type_identifier" }]
  | first :: rest =>
    match nestNames first rest with
    | [front, dot, last] =>
      [⟨"nested_type_identifier", true, false, none, front.start, last.stop,
        [front, dot, { last with kind := "type_identifier" }]⟩]
    | other => other

/-- The name of a type, perhaps inside a namespace. -/
def qualifiedName : Rule := do
  let names ← seq [identifier, many (seq [mark ".", anyName "identifier"])]
  return asTypeName names

def namedType : Rule := do
  let w ← peekWord
  if predefinedTypes.contains w then leafWord "predefined_type" w
  else
    let head ← qualifiedName
    alt [extend "generic_type" head g.typeArguments, pure head]

/-! ### Literals and queries -/

def literalType : Rule :=
  node "literal_type" (alt
    [number, string, leafWord "true" "true", leafWord "false" "false", leafWord "null" "null",
      leafWord "undefined" "undefined",
      node "unary_expression" (seq [alt [mark "-", mark "+"], number])])

def typeCallArguments : Rule :=
  node "arguments" (seq [mark "(", commaSeparated g.expression, mark ")"])

/-- One more step of a query: a property, an index, a call or type arguments. -/
def queryStep (before : List Node) : Rule :=
  alt
    [extend "member_expression" (before.map (·.inRole .object))
      (seq [alt [mark ".", mark "?."],
        field .property (alt [privateName, anyName "property_identifier"])]),
      extend "subscript_expression" before
        (seq [sameLine, mark "[", alt [string, number, namedType g], mark "]"]),
      extend "call_expression" (before.map (·.inRole .function))
        (field .arguments g.typeCallArguments)]

/-- The type of a value. -/
def typeQuery : Rule :=
  node "type_query" (seq
    [word "typeof", chain (alt [leafWord "import" "import", subject]) g.queryStep,
      opt (seq [sameLine, g.typeArguments])])

/-- One more step of a type from another module. -/
def importStep (before : List Node) : Rule :=
  alt
    [extend "member_expression" (before.map (·.inRole .object))
      (seq [mark ".", field .property (alt [privateName, anyName "property_identifier"])]),
      extend "call_expression" (before.map (·.inRole .function))
        (field .arguments g.typeCallArguments)]

def importType : Rule := do
  let head ← chain (leafWord "import" "import") g.importStep
  alt [extend "generic_type" head g.typeArguments, pure head]

/-! ### Objects and tuples -/

/-- The sign and word that make the members of a mapped type constant or not. -/
def readonlySign : Rule := seq [opt (alt [mark "-", mark "+"]), word "readonly"]

/-- The clause of a mapped type. -/
def mappedClause : Rule :=
  node "mapped_type_clause" (seq
    [field .name typeName, word "in", g.read .type, opt (seq [word "as", g.read .type])])

/-- The annotation of an indexed member, which may add or take away an option mark. -/
def indexAnnotation : Rule :=
  alt
    [g.typeAnnotation,
      node "opting_type_annotation" (seq [mark "?", mark ":", g.read .type]),
      node "omitting_type_annotation" (seq [mark "-", mark "?", mark ":", g.read .type]),
      node "adding_type_annotation" (seq [mark "+", mark "?", mark ":", g.read .type])]

/-- A member for every index of a type. -/
def indexSignature : Rule :=
  node "index_signature" (seq
    [opt readonlySign, mark "[",
      alt [seq [field .name (anyName "identifier"), mark ":", g.read .type], g.mappedClause],
      mark "]", g.indexAnnotation])

/-- Words before the name of a member of an object type. -/
def memberModifiers : Rule :=
  seq [opt (seq [accessibility, beforeName]), opt (modifier "static"),
    opt (seq [leafWord "override_modifier" "override", beforeName]), opt (modifier "readonly")]

def methodSignature : Rule :=
  node "method_signature" (seq
    [memberModifiers, opt (modifier "async"),
      opt (alt [modifier "get", modifier "set", mark "*"]),
      field .name g.propertyName, opt (mark "?"), g.callSignature])

def propertySignature : Rule :=
  node "property_signature" (seq
    [memberModifiers, field .name g.propertyName, opt (mark "?"), opt g.typeAnnotation])

def typeMember : Rule :=
  alt
    [node "call_signature" g.callSignature,
      node "construct_signature" (seq
        [opt (word "abstract"), word "new", opt g.typeParameters,
          field .parameters (g.read .parameters), opt g.typeAnnotation]),
      g.indexSignature, g.methodSignature, g.propertySignature]

/-- What separates the members of an object type. -/
def memberEnd : Rule := alt [mark ",", g.semicolon false, ahead (mark "\x7d")]

/-- The **members** of an object type between braces. -/
def typeBody (kind : String) : Rule :=
  node kind (seq
    [mark "\x7b", opt (alt [mark ",", mark ";"]), many (seq [g.typeMember, g.memberEnd]),
      mark "\x7d"])

def objectType : Rule := g.typeBody "object_type"

def tupleMember : Rule :=
  alt
    [node "required_parameter" (seq
      [alt [identifier, node "rest_pattern" (seq [mark "...", identifier])], g.typeAnnotation]),
      node "optional_parameter" (seq [identifier, mark "?", g.typeAnnotation]),
      node "rest_type" (seq [mark "...", g.read .type]),
      node "optional_type" (seq [g.read .type, mark "?"]),
      g.read .type]

def tupleType : Rule :=
  node "tuple_type" (seq [mark "[", commaSeparated g.tupleMember, mark "]"])

/-! ### Functions and templates -/

def functionType : Rule :=
  node "function_type" (seq
    [opt g.typeParameters, field .parameters (g.read .parameters), mark "=>", g.returnType])

def constructorType : Rule :=
  node "constructor_type" (seq
    [opt (word "abstract"), word "new", opt g.typeParameters,
      field .parameters (g.read .parameters), mark "=>", g.read .type])

/-- The characters of a template up to its end or a substitution, with no node if there are none. -/
def templateChars : Rule := do
  match Lexeme.templateChars? (← immediate) with
  | some 0 => return []
  | some n => take "string_fragment" true n
  | none => failure

/-- A mark at the current place, where blanks would count. -/
def immediateMark (p : String) : Rule := do
  if p.toList.isPrefixOf (← immediate) then take p false p.length else failure

/-- A template whose substitutions are of one kind. -/
def template (kind substitution : String) (inner : Rule) : Rule :=
  node kind (seq
    [bareMark "\x60",
      many (alt
        [do
          let nodes ← templateChars
          if nodes.isEmpty then failure else return nodes,
          do
            let start ← offset
            let opening ← immediateMark "$\x7b"
            let body ← inner
            let closing ← mark "\x7d"
            return [⟨substitution, true, false, none, start, ← offset,
              opening ++ body ++ closing⟩]]),
      immediateMark "\x60"])

/-! ### Operators -/

def parenthesizedType : Rule :=
  node "parenthesized_type" (seq [mark "(", g.read .type, mark ")"])

/-- A type that is put in by a condition. -/
def inferType : Rule :=
  node "infer_type" (seq
    [word "infer", typeName, opt (seq [word "extends", g.read .unionType])])

/-- A type without operators around it. -/
def primaryType : Rule := do
  let w ← peekWord
  match w with
  | "import" => g.importType
  | "typeof" => g.typeQuery
  | "this" => leafWord "this_type" "this"
  | "const" => word "const"
  | "void" => leafWord "predefined_type" "void"
  | "true" | "false" | "null" | "undefined" => literalType
  | "" =>
    match (← upcoming).head? with
    | some '\x7b' => g.objectType
    | some '[' => g.tupleType
    | some '(' => g.parenthesizedType
    | some '\x60' => template "template_literal_type" "template_type" (g.read .type)
    | some '?' => node "maybe_type" (seq [mark "?", g.read .typeOperand])
    | some '*' => node "existential_type" (mark "*")
    | _ => literalType
  | _ => g.namedType

/-- An index or a pair of brackets after a type, on the same line. -/
def typeSuffix (before : List Node) : Rule :=
  alt
    [extend "array_type" before (seq [sameLine, mark "[", mark "]"]),
      extend "lookup_type" before (seq [sameLine, mark "[", g.read .type, mark "]"])]

/-- An **operand** of the operators on types: functions, prefixed types, and types with brackets
after them. -/
def typeOperand : Rule := do
  let suffixed := chain g.primaryType g.typeSuffix
  match ← peekWord with
  | "keyof" => alt [node "index_type_query" (seq [word "keyof", g.read .typeOperand]), suffixed]
  | "readonly" => alt [node "readonly_type" (seq [word "readonly", g.read .typeOperand]), suffixed]
  | "unique" =>
    alt [node "predefined_type" (seq [word "unique", word "symbol"]), suffixed]
  | "infer" => alt [g.inferType, suffixed]
  | "new" => g.constructorType
  | "abstract" => alt [g.constructorType, suffixed]
  | _ => alt [g.functionType, suffixed]

/-- Operands joined by one operator. -/
def joinedTypes (kind operator : String) (operand : Rule) : Rule :=
  chain (alt [node kind (seq [mark operator, operand]), operand])
    fun before => extend kind before (seq [mark operator, operand])

def unionType : Rule :=
  joinedTypes "union_type" "|" (joinedTypes "intersection_type" "&" (g.read .typeOperand))

/-- A **type**: a union, or a choice between two types. -/
def type : Rule := do
  let left ← g.unionType
  alt
    [extend "conditional_type" left (seq
      [sameLine, word "extends", g.read .unionType, mark "?", g.read .type, mark ":",
        g.read .type]),
      pure left]

end ScriptTree.Grammar
