import ScriptTree.Tree.Access

/-!
# Constructs without meaning at run time

The kinds of nodes that plain scripts do not have. Some are taken out wherever they stand, some are
statements or members of classes that go as a whole, and namespaces are refused.
-/

namespace ScriptTree.Transform

/-- Parts of other constructs that only state **types**. -/
def typeOnlyKinds : List String :=
  ["type_annotation", "type_arguments", "type_parameters", "asserts_annotation",
    "type_predicate_annotation", "omitting_type_annotation", "opting_type_annotation",
    "adding_type_annotation", "accessibility_modifier", "override_modifier", "implements_clause"]

/-- **Statements** that only state types. -/
def typeOnlyStatements : List String :=
  ["interface_declaration", "type_alias_declaration", "ambient_declaration", "function_signature"]

/-- **Members** of classes that only state types. -/
def memberSignatures : List String :=
  ["method_signature", "abstract_method_signature", "index_signature"]

/-- Namespaces, which have no plain form. -/
def namespaceKinds : List String := ["internal_module", "module"]

def elementKinds : List String := ["jsx_element", "jsx_self_closing_element"]

/-- Everything that is taken out as it stands. -/
def removedKinds : List String := typeOnlyKinds ++ typeOnlyStatements ++ memberSignatures

/-- Takes the tokens of some kinds out of a node. -/
def removeTokens (edits : EditSet) (n : Node) (kinds : List String) : EditSet :=
  (n.children.filter fun c => !c.named && kinds.contains c.kind).foldl EditSet.remove edits

end ScriptTree.Transform
