import ScriptTree.Proofs.Program
import ScriptTree.Proofs.Splice
import ScriptTree.Proofs.Walk
import ScriptTree.Transform.Basic

/-!
# Typed parts

The **typed parts** of a node are what a plain script does not have: the node itself, or some of
its children. Which they are can be read off the node, apart from the walk that replaces them, and
so can what is written instead. A visit of a node puts these texts in place of its typed parts, but
leaves elements and most imports for later.

## Main results

* `Transform.visits_visit`: what a visit of any node does.
-/

namespace ScriptTree.Transform

open List Option
open Utf8 (IsBoundary size)

/-! ### What plain scripts do not have -/

/-- The tokens of some kinds among the children of a node. -/
def tokens (kinds : List String) (n : Node) : List Node :=
  n.children.filter fun c ↦ !c.named && kinds.contains c.kind

/-- Whether an export is of **types** only. -/
def exportsTypes (n : Node) : Bool :=
  n.hasToken ["type"] || n.parts.any (typeOnlyStatements.contains ·.kind)

/-- The word of an export that is followed by an equals sign. -/
def assignedExport? (n : Node) : Option Node :=
  match n.children with
  | first :: second :: _ => if second.kind == "=" then some first else none
  | _ => none

/-- The items of a list of exports. -/
def exportItems (clause : Node) : List Node := clause.parts.filter (·.kind == "export_specifier")

/-- Whether a list of exports has an item that is a **type**. -/
def listsTypes (clause : Node) : Bool := (exportItems clause).any (·.hasToken ["type"])

/-- Whether an import is put off until the whole tree is known: it is neither of types only nor of a
whole module. -/
def isPutOff (n : Node) : Bool :=
  n.kind == "import_statement" && !n.hasToken ["type", "typeof"]
    && (n.part? "import_require_clause").isNone

/-- Whether an item of a list of imports is marked as a **type**. -/
def isTypeItem (item : Node) : Bool :=
  item.kind == "import_specifier" && item.hasToken ["type", "typeof"]

/-- Whether a part of the clause of an import is a list with items that are types. -/
def hasTypeItems (part : Node) : Bool := part.kind == "named_imports" && part.parts.any isTypeItem

/-- Whether the clause of an import binds a name that is marked as a **type**. -/
def bindsTypes (clause : Node) : Bool := clause.parts.any hasTypeItems

/-- The parts of a node that are **taken out**: the node itself, or some of its children. -/
def erasedParts (n : Node) : List Node :=
  if removedKinds.contains n.kind then [n]
  else match n.kind with
    | "export_statement" => if exportsTypes n then [n] else []
    | "import_statement" => if n.hasToken ["type", "typeof"] then [n] else []
    | "public_field_definition" =>
      if n.hasToken ["declare", "abstract"] then [n] else tokens ["readonly", "?", "!"] n
    | "abstract_class_declaration" => tokens ["abstract"] n
    | "method_definition" => tokens ["?"] n
    | "required_parameter" => tokens ["readonly", "?"] n
    | "optional_parameter" => tokens ["readonly", "?"] n
    | "variable_declarator" => tokens ["!"] n
    | "as_expression" => n.children.drop 1
    | "satisfies_expression" => n.children.drop 1
    | "non_null_expression" => (n.children.getLast?.filter (·.kind == "!")).toList
    | _ => []

/-- The parts of a node that are **written anew**: the node itself, or some of its children. -/
def rewrittenParts (n : Node) : List Node :=
  match n.kind with
  | "export_statement" =>
    if exportsTypes n then []
    else (assignedExport? n).toList ++ ((n.part? "export_clause").filter listsTypes).toList
  | "import_statement" =>
    if n.hasToken ["type", "typeof"] then []
    else if (n.part? "import_require_clause").isSome then [n]
    else ((n.part? "import_clause").filter bindsTypes).toList
  | "import_alias" => [n]
  | "enum_declaration" => [n]
  | "jsx_element" => [n]
  | "jsx_self_closing_element" => [n]
  | _ => []

/-- The **typed parts** of a node, which plain scripts do not have as they stand. -/
def typedParts (n : Node) : List Node := erasedParts n ++ rewrittenParts n

/-- Whether what lies below a node is **passed over**. -/
def isPassedOver (n : Node) : Bool :=
  if removedKinds.contains n.kind then true
  else match n.kind with
    | "export_statement" => exportsTypes n
    | "import_statement" => true
    | "import_alias" => true
    | "enum_declaration" => true
    | "public_field_definition" => n.hasToken ["declare", "abstract"]
    | _ => false

/-- Whether the typed parts of a node are left alone until the whole tree is known. -/
def isDelayed (n : Node) : Bool := elementKinds.contains n.kind || isPutOff n

/-- The nodes of a tree that are looked at. -/
def reached (tree : SourceTree) : List Node := Node.reachedAll isPassedOver tree.statements

/-! ### What is written instead -/

/-- A list of exports of items with some texts. -/
def exportList (items : List Text) : Text :=
  let text := Text.join ", " items
  if text.isEmpty then "\x7b\x7d" else ("\x7b " : Text) ++ text ++ (" \x7d" : Text)

/-- What is **written** in place of a typed part of a node. What a compiled node holds of the script
is written with some edits. -/
inductive Rewrites (tree : SourceTree) (names : MarkupNames) (edits : EditSet) (n : Node) :
    Node → Text → Prop
  | gone {m : Node} (hm : m ∈ erasedParts n) : Rewrites tree names edits n m []
  | assigned {m : Node} (hm : m ∈ rewrittenParts n) (hkind : n.kind = "export_statement")
      (hword : assignedExport? n = some m) : Rewrites tree names edits n m "module.exports"
  | listed {clause : Node} {items : List Text} (hm : clause ∈ rewrittenParts n)
      (hkind : n.kind = "export_statement") (hclause : n.part? "export_clause" = some clause)
      (hitems : ((exportItems clause).filter (!·.hasToken ["type"])).mapM tree.nodeText
        = .ok items) :
      Rewrites tree names edits n clause (exportList items)
  | required {clause : Node} {binding source : Text} (hm : n ∈ rewrittenParts n)
      (hclause : n.part? "import_require_clause" = some clause)
      (hbinding : tree.nodeText ((clause.part? "identifier").getD clause) = .ok binding)
      (hsource : tree.nodeText ((clause.child? .source).getD clause) = .ok source) :
      Rewrites tree names edits n n
        (("const " : Text) ++ binding ++ (" = require(" : Text) ++ source ++ (");" : Text))
  | renamed {binding value : Text} (hm : n ∈ rewrittenParts n) (hkind : n.kind = "import_alias")
      (hbinding : tree.nodeText (n.parts.head?.getD n) = .ok binding)
      (hvalue : tree.nodeText (n.parts.getLast?.getD n) = .ok value) :
      Rewrites tree names edits n n
        (("const " : Text) ++ binding ++ (" = " : Text) ++ value ++ (";" : Text))
  | enum {text : Text} (hm : n ∈ rewrittenParts n) (hkind : n.kind = "enum_declaration")
      (htext : compileEnum tree edits n = .ok text) : Rewrites tree names edits n n text
  | element {text : Text} (hm : n ∈ rewrittenParts n) (hkind : elementKinds.contains n.kind = true)
      (htext : compileElement tree edits names n = .ok text) : Rewrites tree names edits n n text

/-- What is **put in** for a node: a constructor assigns the properties that its parameters declare,
after its call of the constructor of the class above, or else at the start of its body. -/
def propertyInsertion (tree : SourceTree) (n : Node) : Option (Int × Text) :=
  if n.kind == "method_definition" then
    match n.child? .name, n.child? .parameters, n.child? .body with
    | some name, some parameters, some body =>
      match tree.nodeText name, propertyNames tree parameters with
      | .ok word, .ok names =>
        if word = ("constructor" : Text) ∧ names ≠ [] then
          some (propertyOffset body, [.scalar ' '] ++ propertyAssignments names)
        else none
      | _, _ => none
    | _, _, _ => none
  else none

/-! ### One visit -/

/-- The work after a visit that puts texts in place of some nodes. -/
def Work.after (w : Work) (tree : SourceTree) (n : Node) (changes : List (Node × Text)) : Work where
  edits := { w.edits.replaceAll changes with
    insertions := (w.edits.replaceAll changes).insertions ++ (propertyInsertion tree n).toList }
  elements := if elementKinds.contains n.kind then n :: w.elements else w.elements
  imports := if isPutOff n then w.imports ++ [n] else w.imports

variable {tree : SourceTree} {names : MarkupNames} {path : Option Path} {n : Node} {w w' : Work}
  {next : Visit}

/-- What a **visit** does: it puts texts in place of the typed parts of a node, unless they are left
for later, and notes what is left and what is put in. -/
structure Visits (tree : SourceTree) (names : MarkupNames) (n : Node) (w w' : Work) (next : Visit) :
    Prop where
  next_eq : next = if isPassedOver n then .skip else .continue
  changes : ∃ changes : List (Node × Text),
    changes.map (·.1) = (if isDelayed n then [] else typedParts n) ∧
    (∀ c ∈ changes, Rewrites tree names w.edits n c.1 c.2) ∧ w' = w.after tree n changes

theorem foldl_remove_eq (ns : List Node) (edits : EditSet) :
    ns.foldl EditSet.remove edits = edits.replaceAll (ns.map fun m ↦ (m, [])) := by
  rw [EditSet.replaceAll, foldl_map]
  rfl

theorem removeTokens_eq (edits : EditSet) (n : Node) (kinds : List String) :
    removeTokens edits n kinds = edits.replaceAll ((tokens kinds n).map fun m ↦ (m, [])) :=
  foldl_remove_eq _ edits

/-- A node for which nothing but replacing is done. -/
structure IsSimple (tree : SourceTree) (n : Node) : Prop where
  delayed : isDelayed n = false
  insertion : propertyInsertion tree n = none

theorem isSimple_of_kind (h : n.kind ∉ "import_statement" :: "method_definition" :: elementKinds) :
    IsSimple tree n := by
  simp only [mem_cons, not_or] at h
  exact ⟨by simp [isDelayed, isPutOff, h], by simp [propertyInsertion, h]⟩

theorem IsSimple.after_eq (h : IsSimple tree n) (w : Work) (changes : List (Node × Text)) :
    w.after tree n changes = { w with edits := w.edits.replaceAll changes } := by
  have hdelayed := h.delayed
  rw [isDelayed, Bool.or_eq_false_iff] at hdelayed
  simp only [Work.after, hdelayed.1, hdelayed.2, h.insertion, toList_none, append_nil]
  rfl

/-- A visit that **takes out** parts of a node. -/
theorem IsSimple.visits_erased (h : IsSimple tree n) (ns : List Node)
    (hnext : next = if isPassedOver n then .skip else .continue) (herased : erasedParts n = ns)
    (hrewritten : rewrittenParts n = []) :
    Visits tree names n w { w with edits := ns.foldl EditSet.remove w.edits } next := by
  refine ⟨hnext, ns.map fun m ↦ (m, []), ?_, fun c hc ↦ ?_, ?_⟩
  · simp [h.delayed, typedParts, herased, hrewritten, Function.comp_def]
  · obtain ⟨m, hm, rfl⟩ := mem_map.1 hc
    exact .gone (herased ▸ hm)
  · rw [h.after_eq, foldl_remove_eq]

/-- A visit that **writes a node anew**. -/
theorem IsSimple.visits_rewritten (h : IsSimple tree n) {text : Text}
    (hnext : next = if isPassedOver n then .skip else .continue) (hparts : typedParts n = [n])
    (htext : Rewrites tree names w.edits n n text) :
    Visits tree names n w { w with edits := w.edits.replace n text } next := by
  refine ⟨hnext, [(n, text)], ?_, fun c hc ↦ ?_, ?_⟩
  · simp [h.delayed, hparts]
  · rw [mem_singleton.1 hc]
    exact htext
  · rw [h.after_eq]
    rfl

/-! ### Exports -/

/-- The edits with the word of an export that is assigned written anew. -/
def assignExport (n : Node) (edits : EditSet) : EditSet :=
  match n.children with
  | first :: second :: _ =>
    if second.kind == "=" then edits.replace first "module.exports" else edits
  | _ => edits

theorem assignExport_eq (n : Node) (edits : EditSet) :
    assignExport n edits
      = edits.replaceAll ((assignedExport? n).toList.map fun m ↦ (m, "module.exports")) := by
  unfold assignExport assignedExport?
  split
  · split <;> rfl
  · rfl

theorem length_valueItems_iff (clause : Node) :
    ((exportItems clause).filter (!·.hasToken ["type"])).length = (exportItems clause).length ↔
      listsTypes clause = false := by
  rw [listsTypes]
  simp

/-- The edits with the list of an export written anew, if it has items that are types. -/
def relistExport (tree : SourceTree) (n : Node) (edits : EditSet) : Except Failure EditSet :=
  match n.part? "export_clause" with
  | none => .ok edits
  | some clause =>
    if listsTypes clause then do
      let items ← ((exportItems clause).filter (!·.hasToken ["type"])).mapM tree.nodeText
      return edits.replace clause (exportList items)
    else .ok edits

theorem visitExport_eq (htypes : exportsTypes n = false) :
    visitExport tree n w
      = (relistExport tree n (assignExport n w.edits)).map fun edits ↦
          (.continue, { w with edits }) := by
  have hif : ¬ (n.hasToken ["type"]
      || n.parts.any (typeOnlyStatements.contains ·.kind)) = true := by
    simpa [exportsTypes] using htypes
  rw [visitExport, if_neg hif, relistExport]
  cases n.part? "export_clause" with
  | none => rfl
  | some clause =>
    have hlength := length_valueItems_iff clause
    unfold exportItems at hlength
    cases hlists : listsTypes clause with
    | false =>
      simp only [if_pos (hlength.2 hlists), hlists, Bool.false_eq_true]
      rfl
    | true =>
      have hne := mt hlength.1 (by simp [hlists])
      simp only [if_neg hne, hlists, exportItems]
      cases List.mapM tree.nodeText _ <;> rfl

theorem visits_visitExport (hkind : n.kind = "export_statement")
    (h : visitExport tree n w = .ok (next, w')) : Visits tree names n w w' next := by
  have hsimple : IsSimple tree n := isSimple_of_kind (by rw [hkind]; decide)
  have hover : isPassedOver n = exportsTypes n := by rw [isPassedOver, hkind]; rfl
  have herased : erasedParts n = if exportsTypes n then [n] else [] := by
    rw [erasedParts, hkind]
    rfl
  have hrewritten : rewrittenParts n = if exportsTypes n then [] else
      (assignedExport? n).toList ++ ((n.part? "export_clause").filter listsTypes).toList := by
    rw [rewrittenParts, hkind]
    rfl
  cases htypes : exportsTypes n with
  | true =>
    obtain ⟨rfl, rfl⟩ := Prod.mk.inj (Except.ok.inj ((if_pos htypes).symm.trans h))
    exact hsimple.visits_erased [n] (by rw [hover, htypes]; rfl)
      (by rw [herased, htypes]; rfl) (by rw [hrewritten, htypes]; rfl)
  | false =>
    simp only [htypes, Bool.false_eq_true] at hover herased hrewritten
    rw [visitExport_eq htypes, assignExport_eq] at h
    obtain ⟨edits, hedits, heq⟩ := map_eq_ok_iff.1 h
    cases heq
    -- The word that is assigned comes first, the list of exports second.
    suffices ∃ changes : List (Node × Text),
        changes.map (·.1) = ((n.part? "export_clause").filter listsTypes).toList ∧
        (∀ c ∈ changes, Rewrites tree names w.edits n c.1 c.2) ∧
        edits = (w.edits.replaceAll
          ((assignedExport? n).toList.map fun m ↦ (m, "module.exports"))).replaceAll changes by
      obtain ⟨changes, hparts, htexts, rfl⟩ := this
      refine ⟨by rw [hover]; rfl,
        (assignedExport? n).toList.map (fun m ↦ (m, ("module.exports" : Text))) ++ changes,
        ?_, ?_, ?_⟩
      · simp [hsimple.delayed, typedParts, herased, hrewritten, hparts, Function.comp_def]
      · intro c hc
        rcases mem_append.1 hc with hc | hc
        · obtain ⟨m, hm, rfl⟩ := mem_map.1 hc
          refine .assigned ?_ hkind (mem_toList.1 hm)
          rw [hrewritten]
          exact mem_append_left _ hm
        · exact htexts c hc
      · rw [hsimple.after_eq, EditSet.replaceAll, EditSet.replaceAll, EditSet.replaceAll,
          foldl_append]
    unfold relistExport at hedits
    cases hclause : n.part? "export_clause" with
    | none =>
      rw [hclause] at hedits
      exact ⟨[], rfl, by simp, (Except.ok.inj hedits).symm⟩
    | some clause =>
      simp only [hclause] at hedits
      split at hedits
      · next hlists =>
        obtain ⟨items, hitems, hedits⟩ := bind_eq_ok_iff.1 hedits
        have hfilter : (some clause).filter listsTypes = some clause := by
          simp [hlists]
        refine ⟨[(clause, exportList items)], by rw [hfilter]; rfl, ?_, (Except.ok.inj hedits).symm⟩
        have hm : clause ∈ rewrittenParts n := by simp [hrewritten, hclause, hfilter]
        simpa using Rewrites.listed hm hkind hclause hitems
      · next hlists =>
        exact ⟨[], by simp [hlists], by simp, (Except.ok.inj hedits).symm⟩

/-! ### Imports, aliases and methods -/

theorem isSimple_import (hkind : n.kind = "import_statement") (hputOff : isPutOff n = false) :
    IsSimple tree n :=
  ⟨by rw [isDelayed, hputOff, hkind]; decide, by simp [propertyInsertion, hkind]⟩

theorem visits_visitImport (hkind : n.kind = "import_statement")
    (h : visitImport tree n w = .ok (next, w')) : Visits tree names n w w' next := by
  have hover : isPassedOver n = true := by rw [isPassedOver, hkind]; rfl
  have herased : erasedParts n = if n.hasToken ["type", "typeof"] then [n] else [] := by
    rw [erasedParts, hkind]
    rfl
  have hrewritten : rewrittenParts n = if n.hasToken ["type", "typeof"] then []
      else if (n.part? "import_require_clause").isSome then [n]
      else ((n.part? "import_clause").filter bindsTypes).toList := by
    rw [rewrittenParts, hkind]
    rfl
  have hputOff : isPutOff n = (!n.hasToken ["type", "typeof"]
      && (n.part? "import_require_clause").isNone) := by simp [isPutOff, hkind]
  unfold visitImport at h
  split at h
  · next htypes =>
    simp only [htypes, Bool.not_true, ↓reduceIte] at herased hrewritten hputOff
    cases h
    exact (isSimple_import hkind hputOff).visits_erased [n] (by rw [hover]; rfl) herased
      hrewritten
  · next htypes =>
    simp only [htypes, Bool.false_eq_true] at herased hrewritten hputOff
    cases hclause : n.part? "import_require_clause" with
    | none =>
      -- Only the import is noted: nothing is replaced yet.
      simp only [hclause] at h hputOff
      cases h
      have hinsertion : propertyInsertion tree n = none := by simp [propertyInsertion, hkind]
      have helement : elementKinds.contains n.kind = false := by rw [hkind]; decide
      refine ⟨by rw [hover]; rfl, [], by simp [isDelayed, hputOff], by simp, ?_⟩
      simp only [Work.after, EditSet.replaceAll, hinsertion, hputOff, helement,
        toList_none, append_nil]
      rfl
    | some clause =>
      simp only [hclause, isSome_some, isNone_some, ↓reduceIte]
        at h hrewritten hputOff
      obtain ⟨binding, hbinding, h⟩ := bind_eq_ok_iff.1 h
      obtain ⟨source, hsource, h⟩ := bind_eq_ok_iff.1 h
      cases h
      exact (isSimple_import hkind hputOff).visits_rewritten (by rw [hover]; rfl)
        (by rw [typedParts, herased, hrewritten]; rfl)
        (.required (by simp [hrewritten]) hclause hbinding hsource)

theorem visits_visitAlias (hkind : n.kind = "import_alias")
    (h : visitAlias tree n w = .ok (next, w')) : Visits tree names n w w' next := by
  obtain ⟨binding, hbinding, h⟩ := bind_eq_ok_iff.1 h
  obtain ⟨value, hvalue, h⟩ := bind_eq_ok_iff.1 h
  cases h
  have hsimple : IsSimple tree n := isSimple_of_kind (by rw [hkind]; decide)
  have hrewritten : rewrittenParts n = [n] := by rw [rewrittenParts, hkind]; rfl
  exact hsimple.visits_rewritten (by rw [isPassedOver, hkind]; rfl)
    (by rw [typedParts, hrewritten, erasedParts, hkind]; rfl)
    (.renamed (by simp [hrewritten]) hkind hbinding hvalue)

theorem visits_visitField (tree : SourceTree) (names : MarkupNames) (w : Work)
    (hkind : n.kind = "public_field_definition") :
    Visits tree names n w (visitField n w).2 (visitField n w).1 := by
  have hsimple : IsSimple tree n := isSimple_of_kind (by rw [hkind]; decide)
  have hover : isPassedOver n = n.hasToken ["declare", "abstract"] := by
    rw [isPassedOver, hkind]
    rfl
  have herased : erasedParts n = if n.hasToken ["declare", "abstract"] then [n]
      else tokens ["readonly", "?", "!"] n := by
    rw [erasedParts, hkind]
    rfl
  have hrewritten : rewrittenParts n = [] := by rw [rewrittenParts, hkind]; rfl
  unfold visitField
  split
  · next hdeclared =>
    exact hsimple.visits_erased [n] (by rw [hover, hdeclared]; rfl)
      (by rw [herased, hdeclared]; rfl) hrewritten
  · next hdeclared =>
    exact hsimple.visits_erased _ (by rw [hover, if_neg hdeclared])
      (by rw [herased, if_neg hdeclared]; rfl) hrewritten

theorem visits_visitMethod (hkind : n.kind = "method_definition")
    (h : visitMethod tree n w = .ok (next, w')) : Visits tree names n w w' next := by
  have hover : isPassedOver n = false := by rw [isPassedOver, hkind]; rfl
  have hdelayed : isDelayed n = false := by rw [isDelayed, isPutOff, hkind]; rfl
  have herased : erasedParts n = tokens ["?"] n := by rw [erasedParts, hkind]; rfl
  have hrewritten : rewrittenParts n = [] := by rw [rewrittenParts, hkind]; rfl
  have hinsertion : propertyInsertion tree n =
      match n.child? .name, n.child? .parameters, n.child? .body with
      | some name, some parameters, some body =>
        match tree.nodeText name, propertyNames tree parameters with
        | .ok word, .ok names =>
          if word = ("constructor" : Text) ∧ names ≠ [] then
            some (propertyOffset body, [.scalar ' '] ++ propertyAssignments names)
          else none
        | _, _ => none
      | _, _, _ => none := by simp only [propertyInsertion, hkind, BEq.rfl, ↓reduceIte]
  -- Whatever is put in, the marks are taken out first.
  suffices next = .continue ∧ w' = { w with edits := { removeTokens w.edits n ["?"] with
      insertions := (removeTokens w.edits n ["?"]).insertions
        ++ (propertyInsertion tree n).toList } } by
    obtain ⟨rfl, rfl⟩ := this
    refine ⟨by rw [hover]; rfl, (tokens ["?"] n).map fun m ↦ (m, []), ?_, fun c hc ↦ ?_, ?_⟩
    · simp [hdelayed, typedParts, herased, hrewritten, Function.comp_def]
    · obtain ⟨m, hm, rfl⟩ := mem_map.1 hc
      exact .gone (herased ▸ hm)
    · rw [isDelayed, Bool.or_eq_false_iff] at hdelayed
      rw [removeTokens_eq, Work.after, hdelayed.1, hdelayed.2]
      rfl
  have hnone (hnone : propertyInsertion tree n = none)
      (h : (.continue, { w with edits := removeTokens w.edits n ["?"] }) = (next, w')) :
      next = .continue ∧ w' = { w with edits := { removeTokens w.edits n ["?"] with
        insertions := (removeTokens w.edits n ["?"]).insertions
          ++ (propertyInsertion tree n).toList } } := by
    cases h
    simp [hnone]
  unfold visitMethod at h
  split at h
  · next name parameters body hname hparameters hbody =>
    simp only [hname, hparameters, hbody] at hinsertion
    obtain ⟨word, hword, h⟩ := bind_eq_ok_iff.1 h
    simp only [hword] at hinsertion
    split at h
    · next hother =>
      refine hnone ?_ (Except.ok.inj h)
      rw [hinsertion]
      cases propertyNames tree parameters <;> simp [hother]
    · next hword =>
      obtain ⟨names, hnames, h⟩ := bind_eq_ok_iff.1 h
      simp only [hnames] at hinsertion
      split at h
      · next hempty =>
        exact hnone (by simp [hinsertion, List.isEmpty_iff.1 hempty]) (Except.ok.inj h)
      · next hnonempty =>
        rw [if_pos ⟨by simpa using hword, by simpa using hnonempty⟩] at hinsertion
        cases h
        rw [hinsertion]
        exact ⟨rfl, rfl⟩
  · next hmissing =>
    refine hnone ?_ (Except.ok.inj h)
    rw [hinsertion]
    split
    · next hname hparameters hbody => exact absurd hbody (hmissing _ _ _ hname hparameters)
    · rfl

/-! ### Any node -/

theorem visits_removed (hremoved : removedKinds.contains n.kind = true) :
    Visits tree names n w { w with edits := w.edits.remove n } .skip := by
  have hother : ∀ k ∈ removedKinds, k ∉ ["export_statement", "import_statement", "import_alias",
      "enum_declaration", "jsx_element", "jsx_self_closing_element", "method_definition"] := by
    decide
  have hkind := hother _ (by simpa using hremoved)
  simp only [mem_cons, not_or] at hkind
  have hsimple : IsSimple tree n := isSimple_of_kind (by simp [elementKinds, hkind])
  exact hsimple.visits_erased [n] (by rw [isPassedOver, if_pos hremoved]; rfl)
    (by rw [erasedParts, if_pos hremoved]) (by simp [rewrittenParts, hkind])

theorem kind_of_element (h : elementKinds.contains n.kind = true) :
    n.kind = "jsx_element" ∨ n.kind = "jsx_self_closing_element" := by
  simpa [elementKinds] using h

theorem isPutOff_of_element (h : elementKinds.contains n.kind = true) : isPutOff n = false := by
  rcases kind_of_element h with hkind | hkind <;> (rw [isPutOff, hkind]; rfl)

/-- An element is **written anew** as a whole. -/
theorem rewrittenParts_of_element (h : elementKinds.contains n.kind = true) :
    rewrittenParts n = [n] := by
  rcases kind_of_element h with hkind | hkind <;> (rw [rewrittenParts, hkind]; rfl)

theorem typedParts_of_element (h : elementKinds.contains n.kind = true) : typedParts n = [n] := by
  have herased : erasedParts n = [] := by
    rcases kind_of_element h with hkind | hkind <;> (rw [erasedParts, hkind]; rfl)
  rw [typedParts, herased, rewrittenParts_of_element h, nil_append]

theorem visits_element (helement : elementKinds.contains n.kind = true) :
    Visits tree names n w { w with elements := n :: w.elements } .continue := by
  have hover : isPassedOver n = false := by
    rcases kind_of_element helement with hkind | hkind <;> (rw [isPassedOver, hkind]; rfl)
  have hputOff : isPutOff n = false := isPutOff_of_element helement
  have hinsertion : propertyInsertion tree n = none := by
    rcases kind_of_element helement with hkind | hkind <;> simp [propertyInsertion, hkind]
  have hdelayed : isDelayed n = true := by rw [isDelayed, helement, Bool.true_or]
  refine ⟨by rw [hover]; rfl, [], by rw [hdelayed]; rfl, by simp, ?_⟩
  simp only [Work.after, EditSet.replaceAll, hinsertion, hputOff, helement,
    toList_none, append_nil]
  rfl

theorem visits_enum (hkind : n.kind = "enum_declaration") {text : Text}
    (htext : compileEnum tree w.edits n = .ok text) :
    Visits tree names n w { w with edits := w.edits.replace n text } .skip := by
  have hsimple : IsSimple tree n := isSimple_of_kind (by rw [hkind]; decide)
  have hrewritten : rewrittenParts n = [n] := by rw [rewrittenParts, hkind]; rfl
  exact hsimple.visits_rewritten (by rw [isPassedOver, hkind]; rfl)
    (by rw [typedParts, hrewritten, erasedParts, hkind]; rfl)
    (.enum (by simp [hrewritten]) hkind htext)

/-- What a visit of **any node** does. -/
theorem visits_visit (h : visit tree path n w = .ok (next, w')) :
    Visits tree names n w w' next := by
  unfold visit at h
  split at h
  · next hremoved =>
    cases h
    exact visits_removed hremoved
  split at h
  · cases h
  split at h
  · next helement =>
    cases h
    exact visits_element helement
  have hmarks (ns : List Node)
      (hkind : n.kind ∉ "import_statement" :: "method_definition" :: elementKinds)
      (hover : isPassedOver n = false) (herased : erasedParts n = ns)
      (hrewritten : rewrittenParts n = [])
      (h : (.ok (.continue, { w with edits := ns.foldl EditSet.remove w.edits }) :
        Except Failure (Visit × Work)) = .ok (next, w')) : Visits tree names n w w' next := by
    cases h
    exact (isSimple_of_kind hkind).visits_erased ns (by rw [hover]; rfl) herased hrewritten
  split at h
  case h_1 hkind => exact visits_visitExport hkind h
  case h_2 hkind => exact visits_visitImport hkind h
  case h_3 hkind => exact visits_visitAlias hkind h
  case h_4 hkind =>
    obtain ⟨text, htext, h⟩ := bind_eq_ok_iff.1 h
    cases h
    exact visits_enum hkind htext
  case h_5 hkind =>
    have hfield := visits_visitField tree names w hkind
    rwa [Except.ok.inj h] at hfield
  case h_7 hkind => exact visits_visitMethod hkind h
  case h_13 hkind =>
    refine hmarks (n.children.getLast?.filter (·.kind == "!")).toList (by rw [hkind]; decide)
      (by rw [isPassedOver, hkind]; rfl) (by rw [erasedParts, hkind]; rfl)
      (by rw [rewrittenParts, hkind]; rfl) (.trans ?_ h)
    cases Option.filter (·.kind == "!") n.children.getLast? <;> rfl
  case h_14 =>
    refine hmarks [] ?_ ?_ ?_ ?_ h
    · simp_all
    · simp_all [isPassedOver]
    · simp_all [erasedParts]
    · simp_all [rewrittenParts, elementKinds]
  all_goals
    next hkind =>
    exact hmarks _ (by rw [hkind]; decide) (by rw [isPassedOver, hkind]; rfl)
      (by rw [erasedParts, hkind]; rfl) (by rw [rewrittenParts, hkind]; rfl) h

end ScriptTree.Transform
