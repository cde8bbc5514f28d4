import ScriptTree.Grammar.Declaration
import ScriptTree.Grammar.Expression

/-!
# Imports and exports

The statements by which a module takes names from other modules and hands its own names out.
-/

namespace ScriptTree.Grammar

open Rule

variable (g : Grammar)

/-- Where names come from. -/
def fromClause : Rule := seq [word "from", field .source string]

/-- What is known about an imported file beside its name. -/
def importAttribute : Rule :=
  opt (node "import_attribute"
    (seq [sameLine, oneWord ["with", "assert"], g.objectLiteral]))

/-- Whether the list of names goes on or ends. -/
def nameEnd : Rule := ahead (alt [mark ",", mark "\x7d"])

/-- The name under which a module hands something out. -/
def exportedName : Rule := alt [anyName "identifier", string]

/-! ### Imports -/

/-- An imported name, perhaps known here by another. -/
def importedName : Rule :=
  seq
    [alt
      [seq [field .name exportedName, word "as", field .alias identifier],
        field .name identifier],
      nameEnd]

/-- An item of a list of imports; typed scripts mark those that are types. -/
def importSpecifier : Rule :=
  alt
    [node "import_specifier" importedName,
      g.whenTyped (node "import_specifier" (seq [oneWord ["type", "typeof"], importedName]))]

def namedImports : Rule :=
  node "named_imports" (seq [mark "\x7b", commaList g.importSpecifier, mark "\x7d"])

def namespaceImport : Rule :=
  node "namespace_import" (seq [mark "*", word "as", identifier])

def importClause : Rule :=
  node "import_clause" (alt
    [namespaceImport, g.namedImports,
      seq [identifier, opt (seq [mark ",", alt [namespaceImport, g.namedImports]])]])

/-- The import of a whole module under a name. -/
def importRequire : Rule :=
  node "import_require_clause" (seq
    [identifier, mark "=", word "require", mark "(", field .source string, mark ")"])

/-- What follows the word `import` and the mark of a type. -/
def importRest : Rule :=
  seq
    [alt [seq [g.importClause, fromClause], g.whenTyped importRequire, field .source string],
      g.importAttribute, g.semicolon false]

def importStatement : Rule :=
  alt
    [g.whenTyped (node "import_statement"
      (seq [word "import", oneWord ["type", "typeof"], g.importRest])),
      node "import_statement" (seq [word "import", g.importRest])]

/-! ### Exports -/

/-- An exported name, perhaps known elsewhere by another. -/
def exportedAs : Rule :=
  seq [field .name exportedName, opt (seq [word "as", field .alias exportedName]), nameEnd]

/-- An item of a list of exports; typed scripts mark those that are types. -/
def exportSpecifier : Rule :=
  alt
    [node "export_specifier" exportedAs,
      g.whenTyped (node "export_specifier" (seq [oneWord ["type", "typeof"], exportedAs]))]

def exportClause : Rule :=
  node "export_clause" (seq [mark "\x7b", commaList g.exportSpecifier, mark "\x7d"])

/-- The names of another module, all of them or one by one. -/
def reexport : Rule :=
  seq
    [alt
      [seq [mark "*", fromClause, g.importAttribute],
        seq [node "namespace_export" (seq [mark "*", word "as", exportedName]), fromClause,
          g.importAttribute],
        seq [g.exportClause, opt (seq [fromClause, g.importAttribute])]],
      g.semicolon false]

/-- The value that a module hands out by default. -/
def defaultExport : Rule :=
  seq
    [word "default",
      alt [g.declaration, seq [field .value g.expression, g.semicolon true]]]

/-- Exports that only typed scripts have. -/
def typedExport : Rule :=
  alt
    [seq [word "type", g.reexport],
      seq [mark "=", g.expression, g.semicolon true],
      seq [word "as", word "namespace", identifier, g.semicolon false]]

def exportStatement : Rule :=
  node "export_statement" (seq
    [many g.decorator, word "export",
      alt [g.reexport, g.defaultExport, g.whenTyped g.typedExport, g.declaration]])

end ScriptTree.Grammar
