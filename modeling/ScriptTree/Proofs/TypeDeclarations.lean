import ScriptTree.Proofs.Cutting
import ScriptTree.Proofs.Plain
import ScriptTree.Proofs.Usage

/-!
# Scripts that only declare types

A typed script whose only constructs of typed scripts are declarations of types at its top becomes
plain by **leaving them out**: the walk succeeds, puts nothing in, and takes out each declaration as
a whole. What stood around the declarations stays as it was, with all blanks and comments.

Whether the other statements are still the statements of what is left is another matter. The end of
a declaration also ends the statement before it, without any semicolon; when the declaration is
gone, that statement ends only if what follows now allows it. So `f` before a declaration and `(x)`
after it become a call.

## Main results

* `OnlyDeclares.plain_eq`: the plain text of such a script is what is left of it.
* `plain_declarations_iff`: what is left is read as the statements that should be left exactly when
  each of them ends where it ended, and what keeps those without semicolons from doing so.
* `plain_declarations_merged`: two statements that become one.
-/

namespace ScriptTree.Transform

open List Node
variable {tree : SourceTree} {names : MarkupNames} {path : Option Path} {d : Dialect}
  {cs : List Char} {n : Node}

/-! ### Declarations of types -/

/-- The kinds of declarations of **types**: interfaces and aliases. -/
def declarationKinds : List String := ["interface_declaration", "type_alias_declaration"]

/-- Whether a statement **declares a type**, exported or not. -/
def declaresType (n : Node) : Bool :=
  declarationKinds.contains n.kind ||
    n.kind == "export_statement" && n.parts.any (declarationKinds.contains ·.kind)

/-- A node that **any script** may have: it has no typed parts, and is neither a namespace nor an
import. -/
structure IsUntyped (n : Node) : Prop where
  parts : typedParts n = []
  isNamespace : n.kind ∉ namespaceKinds
  isImport : n.kind ≠ "import_statement"

theorem IsUntyped.erasedParts_eq (h : IsUntyped n) : erasedParts n = [] :=
  (append_eq_nil_iff.1 h.parts).1

theorem IsUntyped.rewrittenParts_eq (h : IsUntyped n) : rewrittenParts n = [] :=
  (append_eq_nil_iff.1 h.parts).2

instance (n : Node) : Decidable (IsUntyped n) :=
  decidable_of_iff ((typedParts n).isEmpty = true ∧ n.kind ∉ namespaceKinds ∧
      n.kind ≠ "import_statement")
    ⟨fun h ↦ ⟨List.isEmpty_iff.1 h.1, h.2.1, h.2.2⟩,
      fun h ↦ ⟨List.isEmpty_iff.2 h.parts, h.isNamespace, h.isImport⟩⟩

/-- A script in which the only constructs of typed scripts are **declarations of types** at the top,
and which has no imports. -/
def OnlyDeclares (tree : SourceTree) : Prop :=
  ∀ s ∈ tree.statements, declaresType s = true ∨ ∀ n ∈ s.reached isPassedOver, IsUntyped n

instance (tree : SourceTree) : Decidable (OnlyDeclares tree) := by
  unfold OnlyDeclares
  infer_instance

theorem IsUntyped.isPassedOver_eq (h : IsUntyped n) : isPassedOver n = false := by
  refine Bool.eq_false_iff.2 fun hpassed ↦ ?_
  have hputOff : isPutOff n = false := by simp [isPutOff, h.isImport]
  have hmem := mem_typedParts_of_isPassedOver hpassed hputOff
  simp [h.parts] at hmem

theorem cases_of_declaresType (h : declaresType n = true) :
    n.kind ∈ removedKinds ∨ n.kind = "export_statement" ∧ exportsTypes n = true := by
  rcases Bool.or_eq_true_iff.1 h with h | h
  · have hsub : declarationKinds ⊆ removedKinds := by decide
    exact .inl (hsub (by simpa using h))
  · obtain ⟨hkind, hdeclares⟩ := Bool.and_eq_true_iff.1 h
    obtain ⟨m, hm, hdeclared⟩ := any_eq_true.1 hdeclares
    have hsub : declarationKinds ⊆ typeOnlyStatements := by decide
    refine .inr ⟨by simpa using hkind, Bool.or_eq_true_iff.2 (.inr ?_)⟩
    exact any_eq_true.2 ⟨m, hm, by simpa using hsub (by simpa using hdeclared)⟩

theorem kind_ne_of_declaresType {kind : String} (h : declaresType n = true)
    (hremoved : kind ∉ removedKinds) (hexport : kind ≠ "export_statement") : n.kind ≠ kind := by
  rintro rfl
  exact (cases_of_declaresType h).elim hremoved fun h ↦ hexport h.1

theorem rewrittenParts_of_removed (h : n.kind ∈ removedKinds) : rewrittenParts n = [] := by
  have hother : ∀ k ∈ removedKinds, k ∉ ["export_statement", "import_statement", "import_alias",
      "enum_declaration", "jsx_element", "jsx_self_closing_element"] := by decide
  have hkind := hother _ h
  simp only [mem_cons, not_or] at hkind
  simp [rewrittenParts, hkind]

/-- A declaration of a type **goes as a whole**. -/
theorem parts_of_declaresType (h : declaresType n = true) :
    erasedParts n = [n] ∧ rewrittenParts n = [] ∧ isPassedOver n = true := by
  rcases cases_of_declaresType h with hremoved | ⟨hkind, htypes⟩
  · exact ⟨if_pos (by simpa using hremoved), rewrittenParts_of_removed hremoved,
      if_pos (by simpa using hremoved)⟩
  · refine ⟨?_, ?_, ?_⟩
    · rw [erasedParts, hkind]
      exact if_pos htypes
    · rw [rewrittenParts, hkind]
      exact if_pos htypes
    · rw [isPassedOver, hkind]
      exact htypes

/-- What is **reached** in such a script: declarations of types at the top, and what lies in
statements that any script may have. -/
theorem OnlyDeclares.reached (h : OnlyDeclares tree) (hn : n ∈ reached tree) :
    n ∈ tree.statements ∧ declaresType n = true ∨
      ∃ s : Node, n ∈ s.reached isPassedOver ∧ ∀ m ∈ s.reached isPassedOver, IsUntyped m := by
  have hall (ss : List Node) (hss : ss ⊆ tree.statements)
      (hn : n ∈ Node.reachedAll isPassedOver ss) : ∃ s ∈ tree.statements,
        n ∈ s.reached isPassedOver := by
    induction ss with
    | nil => simp [Node.reachedAll] at hn
    | cons s ss ih =>
      obtain ⟨hs, hss⟩ := cons_subset.1 hss
      exact (mem_append.1 hn).elim (fun hn ↦ ⟨s, hs, hn⟩) (ih hss)
  obtain ⟨s, hs, hn⟩ := hall _ (List.Subset.refl _) hn
  rcases h s hs with hdeclares | huntyped
  · rw [reached_eq, (parts_of_declaresType hdeclares).2.2] at hn
    obtain rfl : n = s := by simpa using hn
    exact .inl ⟨hs, hdeclares⟩
  · exact .inr ⟨s, hn, huntyped⟩

theorem OnlyDeclares.declaresType_or (h : OnlyDeclares tree) (hn : n ∈ Transform.reached tree) :
    declaresType n = true ∨ IsUntyped n := by
  rcases h.reached hn with ⟨-, hdeclares⟩ | ⟨s, hn, huntyped⟩
  · exact .inl hdeclares
  · exact .inr (huntyped n hn)

/-! ### The walk -/

theorem visit_of_declaresType (h : declaresType n = true) (w : Work) :
    visit tree path n w = .ok (removeNode n w) := by
  rcases cases_of_declaresType h with hremoved | ⟨hkind, htypes⟩
  · rw [visit, if_pos (by simpa using hremoved)]
  · simp only [visit, hkind]
    exact if_pos htypes

theorem exists_visitExport (h : IsUntyped n) (hkind : n.kind = "export_statement") (w : Work) :
    ∃ result, visitExport tree n w = .ok result := by
  cases htypes : exportsTypes n with
  | true => exact ⟨_, if_pos htypes⟩
  | false =>
    have hrewritten := h.rewrittenParts_eq
    simp only [rewrittenParts, hkind, htypes, Bool.false_eq_true, ↓reduceIte,
      append_eq_nil_iff] at hrewritten
    rw [visitExport_eq htypes, relistExport]
    cases hclause : n.part? "export_clause" with
    | none => exact ⟨_, rfl⟩
    | some clause =>
      have hlists : listsTypes clause = false := by simpa [hclause] using hrewritten.2
      exact ⟨_, by simp only [hlists, Bool.false_eq_true]; rfl⟩

theorem exists_propertyNames (hover : tree.Over d cs) (hn : n ∈ tree.root.preorder) :
    ∃ names, propertyNames tree n = .ok names := by
  refine ⟨_, mapM_eq_ok fun m hm ↦ nodeText_eq hover ?_⟩
  obtain ⟨k, hk, hm⟩ := mem_filterMap.1 hm
  have hchild : k ∈ n.children := mem_of_mem_filter (mem_of_mem_filter hk)
  split at hm
  · have hm := (Option.filter_eq_some_iff.1 hm).1
    exact mem_preorder_trans (mem_preorder_of_child hn hchild)
      (mem_preorder_of_mem_children (mem_of_find?_eq_some hm))
  · cases hm

theorem exists_visitMethod (hover : tree.Over d cs) (hn : n ∈ tree.root.preorder) (w : Work) :
    ∃ result, visitMethod tree n w = .ok result := by
  have hchild {r : Role} {m : Node} (hm : n.child? r = some m) : m ∈ tree.root.preorder :=
    mem_preorder_of_child hn (mem_of_find?_eq_some hm)
  unfold visitMethod
  split
  · next name parameters body hname hparameters hbody =>
    obtain ⟨names, hnames⟩ := exists_propertyNames hover (hchild hparameters)
    rw [nodeText_eq hover (hchild hname), hnames]
    simp only [bind, Except.bind]
    split
    · exact ⟨_, rfl⟩
    · split <;> exact ⟨_, rfl⟩
  · exact ⟨_, rfl⟩

/-- A node that any script may have is **visited**. -/
theorem exists_visit_of_isUntyped (hover : tree.Over d cs) (hn : n ∈ tree.root.preorder)
    (h : IsUntyped n) (w : Work) : ∃ result, visit tree path n w = .ok result := by
  unfold visit
  split
  · exact ⟨_, rfl⟩
  · split
    · next hnamespace => exact absurd (by simpa using hnamespace) h.isNamespace
    · split
      · exact ⟨_, rfl⟩
      · split
        case h_1 hkind => exact exists_visitExport h hkind w
        case h_2 hkind => exact absurd hkind h.isImport
        case h_3 hkind => simpa [rewrittenParts, hkind] using h.rewrittenParts_eq
        case h_4 hkind => simpa [rewrittenParts, hkind] using h.rewrittenParts_eq
        case h_7 => exact exists_visitMethod hover hn w
        all_goals exact ⟨_, rfl⟩

theorem exists_foldlM_ok {α β ε : Type} {f : β → α → Except ε β} {l : List α}
    (h : ∀ b, ∀ a ∈ l, ∃ b', f b a = .ok b') (b : β) : ∃ b', l.foldlM f b = .ok b' := by
  induction l generalizing b with
  | nil => exact ⟨b, rfl⟩
  | cons a l ih =>
    obtain ⟨b', hb'⟩ := h b a mem_cons_self
    rw [foldlM_cons, hb']
    exact ih (fun b c hc ↦ h b c (mem_cons_of_mem _ hc)) b'

theorem OnlyDeclares.isPutOff_eq (h : OnlyDeclares tree) (hn : n ∈ Transform.reached tree) :
    isPutOff n = false := by
  have hkind : n.kind ≠ "import_statement" := by
    rcases h.declaresType_or hn with hdeclares | huntyped
    · exact kind_ne_of_declaresType hdeclares (by decide) (by decide)
    · exact huntyped.isImport
  simp [isPutOff, hkind]

/-- The walk over such a script **succeeds**, and leaves nothing for later. -/
theorem OnlyDeclares.exists_collect (h : OnlyDeclares tree) (hover : tree.Over d cs)
    (path : Option Path) :
    ∃ w, collect tree path = .ok w ∧ w.elements = [] ∧ w.imports = [] := by
  have hvisit (w) (n) (hn : n ∈ Transform.reached tree) :
      ∃ w', Node.effect (fun n w ↦ visit tree path n w) w n = .ok w' := by
    obtain ⟨result, hresult⟩ : ∃ result, visit tree path n w = .ok result := by
      rcases h.declaresType_or hn with hdeclares | huntyped
      · exact ⟨_, visit_of_declaresType hdeclares w⟩
      · exact exists_visit_of_isUntyped hover (mem_preorder_of_reached hn) huntyped w
    exact ⟨result.2, by rw [Node.effect, hresult]; rfl⟩
  obtain ⟨w, hw⟩ := exists_foldlM_ok hvisit {}
  rw [← collect_eq] at hw
  have hcollected : Collected tree {} (Transform.reached tree) w := collected_collect hw
  refine ⟨w, hw, ?_, ?_⟩
  · rw [hcollected.elements, reverse_eq_nil_iff]
    refine filter_eq_nil_iff.2 fun n hn helement ↦ ?_
    have hrewritten := rewrittenParts_of_element helement
    rcases h.declaresType_or hn with hdeclares | huntyped
    · simp [(parts_of_declaresType hdeclares).2.1] at hrewritten
    · simp [huntyped.rewrittenParts_eq] at hrewritten
  · rw [hcollected.imports]
    exact filter_eq_nil_iff.2 fun n hn ↦ by simp [h.isPutOff_eq hn]

theorem OnlyDeclares.exists_plainEdits (h : OnlyDeclares tree) (hover : tree.Over d cs)
    (names : MarkupNames) (elide : Bool) (path : Option Path) :
    ∃ edits, plainEdits tree names elide path = .ok edits := by
  obtain ⟨w, hw, helements, himports⟩ := h.exists_collect hover path
  obtain ⟨used, hused⟩ : ∃ used, namesFor tree names elide = .ok used := by
    obtain ⟨used, hused, -⟩ := exists_usedNames hover names
    unfold namesFor
    cases elide with
    | false => exact ⟨_, rfl⟩
    | true => exact ⟨some used, by rw [hused]; rfl⟩
  refine ⟨w.edits, ?_⟩
  rw [plainEdits_eq, hw]
  show (do
    let edits ← compileElements tree names w.edits w.elements
    let used ← namesFor tree names elide
    w.imports.foldlM (pruneImport tree used) edits) = _
  rw [helements, himports, hused]
  rfl

/-! ### What is put in -/

/-- A parameter that any script may have **declares no property**. -/
theorem IsUntyped.isProperty_eq (h : IsUntyped n) (hchildren : ∀ m ∈ n.children, IsUntyped m)
    (hkind : n.kind = "required_parameter" ∨ n.kind = "optional_parameter") :
    isProperty n = false := by
  have herased := h.erasedParts_eq
  have htokens : tokens ["readonly", "?"] n = [] := by
    rcases hkind with hkind | hkind <;> (rw [erasedParts, hkind] at herased; exact herased)
  refine Bool.or_eq_false_iff.2 ⟨?_, ?_⟩
  · refine any_eq_false.2 fun m hm htoken ↦ filter_eq_nil_iff.1 htokens m hm ?_
    simp only [Bool.and_eq_true, contains_eq_mem, mem_singleton] at htoken
    simp [htoken]
  · refine any_eq_false.2 fun m hm haccess ↦ ?_
    have hgone := (hchildren m hm).erasedParts_eq
    rw [erasedParts, beq_iff_eq.1 haccess] at hgone
    cases hgone

/-- **Nothing is put in** in such a script. -/
theorem OnlyDeclares.propertyInsertion_eq (h : OnlyDeclares tree)
    (hn : n ∈ Transform.reached tree) : propertyInsertion tree n = none := by
  by_cases hkind : n.kind = "method_definition"
  · rcases h.reached hn with ⟨-, hdeclares⟩ | ⟨s, hn, huntyped⟩
    · exact absurd hkind (kind_ne_of_declaresType hdeclares (by decide) (by decide))
    · -- All that lies in the statement is reached.
      have hchild {k m : Node} (hk : k ∈ s.reached isPassedOver) (hm : m ∈ k.children) :
          m ∈ s.reached isPassedOver := by
        refine mem_reached_trans hk ?_
        rw [reached_eq, (huntyped k hk).isPassedOver_eq]
        exact mem_cons_of_mem _ (mem_reachedAll_of_mem hm)
      unfold propertyInsertion
      split
      · split
        · next name parameters body hname hparameters hbody =>
          have hnames : propertyNames tree parameters = .ok [] := by
            have hnone : (parameters.parts.filterMap fun p ↦
                if (p.kind == "required_parameter" || p.kind == "optional_parameter")
                  && isProperty p then (p.child? .pattern).filter (·.kind == "identifier")
                else none) = [] := by
              refine filterMap_eq_nil_iff.2 fun p hp ↦ if_neg fun hproperty ↦ ?_
              obtain ⟨hkind, hproperty⟩ := Bool.and_eq_true_iff.1 hproperty
              have hp := hchild (hchild hn (mem_of_find?_eq_some hparameters))
                (mem_of_mem_filter (mem_of_mem_filter hp))
              have hnot := (huntyped p hp).isProperty_eq (fun m hm ↦ huntyped m (hchild hp hm))
                (by simpa using hkind)
              simp [hproperty] at hnot
            rw [propertyNames, hnone]
            rfl
          rw [hnames]
          cases tree.nodeText name <;> simp
        · rfl
      · rfl
  · simp [propertyInsertion, hkind]

/-! ### What is left -/

/-- Whether a byte lies in a **declaration of a type** at the top of a script. -/
def declaredAt (tree : SourceTree) (x : Nat) : Bool :=
  tree.statements.any fun s ↦ declaresType s && (s.start ≤ x && x < s.stop)

/-- A text **without the declarations** of types at the top of its tree. -/
def remainder (tree : SourceTree) (cs : List Char) : List Char := uncovered (declaredAt tree) 0 cs

/-- The statements that declare **no types**. -/
def keptStatements (tree : SourceTree) : List Node := tree.statements.filter (!declaresType ·)

/-- Patches for such a script **take out** declarations of types. -/
theorem MakesPlain.takesOut {used : Option (List Text)} {edits : EditSet} {patches : List Patch}
    {q : Patch} (h : MakesPlain tree names used edits patches) (honly : OnlyDeclares tree)
    (hq : q ∈ patches) :
    q.text = [] ∧ ∃ s ∈ tree.statements, declaresType s = true ∧ s.start = q.start ∧
      s.stop = q.stop := by
  obtain ⟨n, hn, m, -, hstart, hstop, ⟨hm, hrewrites⟩ | ⟨hputOff, -⟩⟩ := h.writes q hq
  · rcases honly.reached hn with ⟨hs, hdeclares⟩ | ⟨s, hn, huntyped⟩
    · obtain ⟨herased, hrewritten, -⟩ := parts_of_declaresType hdeclares
      rw [typedParts, herased, hrewritten, append_nil, mem_singleton] at hm
      subst hm
      refine ⟨?_, m, hs, hdeclares, hstart, hstop⟩
      rcases hrewrites.eq_nil_or with ⟨-, htext⟩ | hm
      · exact htext
      · simp [hrewritten] at hm
    · simp [(huntyped n hn).parts] at hm
  · exact absurd hputOff (by simp [honly.isPutOff_eq hn])

theorem MakesPlain.any_covers {used : Option (List Text)} {edits : EditSet} {patches : List Patch}
    (h : MakesPlain tree names used edits patches) (honly : OnlyDeclares tree) (x : Nat) :
    patches.any (·.covers x) = declaredAt tree x := by
  have hcovers {q : Patch} : q.covers x = true ↔ q.start ≤ x ∧ x < q.stop := by
    simp [Patch.covers]
  rw [Bool.eq_iff_iff, declaredAt, any_eq_true, any_eq_true]
  constructor
  · rintro ⟨q, hq, hx⟩
    obtain ⟨-, s, hs, hdeclares, hstart, hstop⟩ := h.takesOut honly hq
    rw [hcovers] at hx
    exact ⟨s, hs, by simp [hdeclares, hstart, hstop, hx]⟩
  · rintro ⟨s, hs, hx⟩
    simp only [Bool.and_eq_true, decide_eq_true_eq] at hx
    obtain ⟨hdeclares, hlow, hhigh⟩ := hx
    obtain ⟨q, hq, hstart, hstop⟩ := h.covers s (mem_reachedAll_of_mem hs) s
      (mem_append_left _ (by rw [(parts_of_declaresType hdeclares).1]; simp))
    exact ⟨q, hq, hcovers.2 ⟨by omega, by omega⟩⟩

/-- The **plain text** of such a script is what is left without its declarations of types. -/
theorem OnlyDeclares.plain_eq (honly : OnlyDeclares tree)
    (hread : SourceTree.readStrict (dialectOf path) cs = .ok tree) (names : MarkupNames) :
    plain names (Text.ofChars cs) path = .ok (Text.ofChars (remainder tree cs)) := by
  have htree := eq_read_of_readStrict hread
  have hover : tree.Over (dialectOf path) cs := htree ▸ over_read _ cs
  have hfault : (SourceTree.read (dialectOf path) cs).root.firstFault?.isNone = true := by
    cases hfirst : (SourceTree.read (dialectOf path) cs).root.firstFault? with
    | none => rfl
    | some fault => exact absurd hread (readStrict_ne_ok (by rw [hfirst]; rfl) tree)
  obtain ⟨edits, hedits⟩ := honly.exists_plainEdits hover names
    (elidedExtensions.contains (extensionOf path)) path
  obtain ⟨used, edits₀, -, hall⟩ := exists_allEdits hover hedits
  have hmakes := hall.makesPlain hover
  have hinserted : assignedAt tree = fun _ ↦ [] := by
    have hnone : (Transform.reached tree).filterMap (propertyInsertion tree) = [] :=
      filterMap_eq_nil_iff.2 fun n hn ↦ honly.propertyInsertion_eq hn
    funext offset
    rw [assignedAt, hnone]
    rfl
  have hwide {q : Patch} (hq : q ∈ tree.root.patches edits) : q.start < q.stop := by
    obtain ⟨-, s, hs, -, hstart, hstop⟩ := hmakes.takesOut honly hq
    have hlt := hover.wide s (mem_preorderAll_of_reached (mem_reachedAll_of_mem hs))
    omega
  rw [plain_eq_map hfault, ← htree, hedits, Except.map, hinserted, append_nil,
    spliced_of_gone (fun q hq ↦ hwide hq) fun q hq ↦ (hmakes.takesOut honly hq).1]
  simp only [hmakes.any_covers honly]
  rw [remainder, uncovered, Text.ofChars, map_map]
  rfl

/-! ### Reading what is left -/

theorem declaresType_attachComments (c : Cursor) (n : Node) :
    declaresType (attachComments c n) = declaresType n := by
  have hlooks (n : Node) : n.parts.any (declarationKinds.contains ·.kind)
      = n.looks.any fun l ↦ l.named && declarationKinds.contains l.kind := by
    rw [Node.parts, Node.namedChildren, Node.looks, filter_filter, any_filter,
      any_map, any_filter]
    refine congrArg (List.any n.children) (funext fun m ↦ ?_)
    simp only [Function.comp_apply, Node.look, Bool.and_assoc]
  rw [declaresType, declaresType, hlooks, hlooks, looks_attachComments, kind_attachComments]

/-- What decides about a statement: whether it declares a type, and where it lies. -/
def outline (n : Node) : Bool × Nat × Nat := (declaresType n, n.start, n.stop)

theorem outline_attachComments (c : Cursor) (n : Node) :
    outline (attachComments c n) = outline n := by
  rw [outline, outline, declaresType_attachComments, start_attachComments, stop_attachComments]

/-- A script is **read as** statements in some ranges: it is well formed, and its statements lie
there. -/
def ReadsAs (d : Dialect) (cs : List Char) (ranges : List (Nat × Nat)) : Prop :=
  ∃ tree, SourceTree.readStrict d cs = .ok tree ∧
    tree.statements.map (fun s ↦ (s.start, s.stop)) = ranges

theorem readsAs_iff {ranges : List (Nat × Nat)} :
    ReadsAs d cs ranges ↔ ∃ ns, Reads d cs.length (Cursor.ofChars cs) ns ∧
      ns.map (fun n ↦ (n.start, n.stop)) = ranges := by
  constructor
  · rintro ⟨tree, hread, hranges⟩
    obtain ⟨ns, hreads, rfl⟩ := readStrict_eq_ok_iff.1 hread
    exact ⟨ns, hreads, by rw [← hranges, map_statements (fun c n ↦ by simp) hreads]⟩
  · rintro ⟨ns, hreads, hranges⟩
    exact ⟨treeOf cs ns, readStrict_eq_ok_iff.2 ⟨ns, hreads, rfl⟩,
      by rw [← hranges, map_statements (fun c n ↦ by simp) hreads]⟩

/-- Where a statement **comes to lie** when the declarations of types are gone. -/
def landed (tree : SourceTree) (cs : List Char) (s : Node) : Nat × Nat :=
  (landing (declaredAt tree) cs s.start, landing (declaredAt tree) cs s.stop)

/-- What is left is read as the statements **that are kept** exactly when each of them is read as it
stood. -/
theorem readsAs_remainder_iff (hread : SourceTree.readStrict d cs = .ok tree) :
    ReadsAs .plain (remainder tree cs) ((keptStatements tree).map (landed tree cs)) ↔
      ∀ s ∈ keptStatements tree, ∃ n, ReadsAt .plain (remainder tree cs) (landed tree cs s).1 n ∧
        n.stop = (landed tree cs s).2 := by
  obtain ⟨ns, hreads, rfl⟩ := readStrict_eq_ok_iff.1 hread
  have houtlines := map_statements outline_attachComments hreads cs
  generalize treeOf cs ns = tree at houtlines ⊢
  have hgone (x : Nat) :
      declaredAt tree x = true ↔ ∃ n ∈ ns, declaresType n = true ∧ n.start ≤ x ∧ x < n.stop := by
    have hmem (P : Bool × Nat × Nat → Prop) :
        (∃ s ∈ tree.statements, P (outline s)) ↔ ∃ n ∈ ns, P (outline n) := by
      simpa using congrArg (fun l ↦ ∃ t ∈ l, P t) houtlines
    rw [declaredAt, any_eq_true]
    simp only [Bool.and_eq_true, decide_eq_true_eq]
    exact hmem fun t ↦ t.1 = true ∧ t.2.1 ≤ x ∧ x < t.2.2
  have hkept : (keptStatements tree).map (landed tree cs)
      = (ns.filter (!declaresType ·)).map (landed tree cs) := by
    have houtline (l : List Node) : (l.filter (!declaresType ·)).map (landed tree cs)
        = ((l.map outline).filter (!·.1)).map fun t ↦
          (landing (declaredAt tree) cs t.2.1, landing (declaredAt tree) cs t.2.2) := by
      rw [filter_map, map_map]
      rfl
    rw [keptStatements, houtline, houtline, houtlines]
  have hstart : (Cursor.ofChars (remainder tree cs)).Gap
      ((Cursor.ofChars cs).cut (declaredAt tree) cs) := by
    rw [Cursor.cut_ofChars]
    exact .refl _
  have hall (Q : Nat × Nat → Prop) : (∀ n ∈ ns, declaresType n = false → Q (landed tree cs n)) ↔
      ∀ s ∈ keptStatements tree, Q (landed tree cs s) := by
    rw [← forall_mem_map, hkept, forall_mem_map]
    simp only [mem_filter, Bool.not_eq_true', and_imp]
  rw [readsAs_iff, hkept]
  refine (reads_cut_iff hreads (Cursor.at_ofChars cs) (fun x _ ↦ hgone x) (Cursor.at_ofChars _)
    hstart).trans ?_
  exact hall fun r ↦ ∃ m, ReadsAt .plain (remainder tree cs) r.1 m ∧ m.stop = r.2

/-! ### Main result -/

/-- **What declarations of types leave behind.** Let a script be well formed in the dialect of its
path, with declarations of types at its top as its only constructs of typed scripts, and without
imports. Its plain text is the script without these declarations. That is read as a plain script
with exactly the other statements, and so with as many, if and only if each of them, read where it
comes to lie, ends where it ended. It need not: a statement without a semicolon ends only if what
now follows it allows that, and before a bracket, a backtick or an operator it goes on, whatever
stood between them. -/
theorem plain_declarations_iff (hread : SourceTree.readStrict (dialectOf path) cs = .ok tree)
    (honly : OnlyDeclares tree) (names : MarkupNames) :
    plain names (Text.ofChars cs) path = .ok (Text.ofChars (remainder tree cs)) ∧
    (ReadsAs .plain (remainder tree cs) ((keptStatements tree).map (landed tree cs)) ↔
      ∀ s ∈ keptStatements tree, ∃ n, ReadsAt .plain (remainder tree cs) (landed tree cs s).1 n ∧
        n.stop = (landed tree cs s).2) ∧
    ∀ s ∈ keptStatements tree, ∀ n, ReadsAt .plain (remainder tree cs) (landed tree cs s).1 n →
      n.kind ∈ Rule.endedKinds → (∀ m, n.children.getLast? = some m → m.kind ≠ ";") →
        ∃ after, after = ((Cursor.ofChars (remainder tree cs)).goTo n.stop).rest ∧
          (∃ goesOn, Terminator.endsHere .plain goesOn false after = true) ∧
          ∀ gap x rest, after = gap ++ x :: rest → (∀ y ∈ gap, isSeparator y = true) →
            x ∉ Rule.carryingMarks := by
  refine ⟨honly.plain_eq hread names, readsAs_remainder_iff hread, ?_⟩
  intro s _ n hn hkind hsemicolon
  have hclosed := hn.closed hkind
  refine ⟨_, rfl, ?_, fun gap x rest hrest hgap ↦
    hclosed.not_mem_carryingMarks hsemicolon hrest hgap⟩
  refine hclosed.resolve_left ?_
  rintro ⟨m, hlast, hkind⟩
  exact hsemicolon m hlast hkind

theorem dialectOf_typedPath : dialectOf (some typedPath) = .typed := by decide

/-- A typed script with declarations of types between statements, with and without semicolons. -/
def apartScript : List Char :=
  ("#!/usr/bin/env node\nf() // a\ninterface I \x7b a: string \x7d\n/* b */ g(1);\n"
    ++ "export type T = I\nh()\n").toList

/-- What is left of `apartScript`. -/
def apartPlain : List Char :=
  "#!/usr/bin/env node\nf() // a\n\n/* b */ g(1);\n\nh()\n".toList

/-- At a script in which each statement is read as it stood. -/
theorem plain_declarations_apart : ∃ tree, SourceTree.readStrict .typed apartScript = .ok tree ∧
    OnlyDeclares tree ∧
    plain {} (Text.ofChars apartScript) (some typedPath) = .ok (Text.ofChars apartPlain) ∧
    (keptStatements tree).map (landed tree apartScript) = [(0, 19), (20, 28), (38, 43), (45, 48)] ∧
    ∀ s ∈ keptStatements tree, ∃ n, ReadsAt .plain apartPlain (landed tree apartScript s).1 n ∧
      n.stop = (landed tree apartScript s).2 := by
  have hfacts : ((SourceTree.read .typed apartScript).root.firstFault?).isNone = true ∧
      OnlyDeclares (SourceTree.read .typed apartScript) ∧
      remainder (SourceTree.read .typed apartScript) apartScript = apartPlain ∧
      (keptStatements (SourceTree.read .typed apartScript)).map
        (landed (SourceTree.read .typed apartScript) apartScript)
          = [(0, 19), (20, 28), (38, 43), (45, 48)] ∧
      ((SourceTree.read .plain apartPlain).root.firstFault?).isNone = true ∧
      (SourceTree.read .plain apartPlain).statements.map (fun s ↦ (s.start, s.stop))
        = [(0, 19), (20, 28), (38, 43), (45, 48)] := by decide +kernel
  obtain ⟨htyped, honly, hremainder, hlanded, hplain, hranges⟩ := hfacts
  have hread := readStrict_of_firstFault? htyped
  obtain ⟨htext, hiff, -⟩ :
      plain {} (Text.ofChars apartScript) (some typedPath) = _ ∧ _ ∧ _ :=
    plain_declarations_iff (by rw [dialectOf_typedPath, hread]) honly {}
  rw [hremainder] at htext hiff
  refine ⟨SourceTree.read .typed apartScript, hread, honly, htext, hlanded,
    hiff.1 ⟨SourceTree.read .plain apartPlain, readStrict_of_firstFault? hplain, ?_⟩⟩
  rw [hranges, hlanded]

/-- A typed script with a declaration of a type between two statements without semicolons. -/
def mergedScript : List Char := "require\ninterface I \x7b\x7d\n('./x')\n".toList

/-- What is left of `mergedScript`. -/
def mergedPlain : List Char := "require\n\n('./x')\n".toList

/-- What stands on either side of a declaration may become **one statement**. -/
theorem plain_declarations_merged : ∃ tree tree',
    SourceTree.readStrict .typed mergedScript = .ok tree ∧ OnlyDeclares tree ∧
    plain {} (Text.ofChars mergedScript) (some typedPath) = .ok (Text.ofChars mergedPlain) ∧
    SourceTree.readStrict .plain mergedPlain = .ok tree' ∧
    (keptStatements tree).length = 2 ∧ tree'.statements.length = 1 := by
  have hfacts : ((SourceTree.read .typed mergedScript).root.firstFault?).isNone = true ∧
      OnlyDeclares (SourceTree.read .typed mergedScript) ∧
      remainder (SourceTree.read .typed mergedScript) mergedScript = mergedPlain ∧
      ((SourceTree.read .plain mergedPlain).root.firstFault?).isNone = true ∧
      (keptStatements (SourceTree.read .typed mergedScript)).length = 2 ∧
      (SourceTree.read .plain mergedPlain).statements.length = 1 := by decide +kernel
  obtain ⟨htyped, honly, hremainder, hplain, hkept, hone⟩ := hfacts
  have hread := readStrict_of_firstFault? htyped
  have htext : plain {} (Text.ofChars mergedScript) (some typedPath) = _ :=
    honly.plain_eq (by rw [dialectOf_typedPath, hread]) {}
  rw [hremainder] at htext
  exact ⟨SourceTree.read .typed mergedScript, SourceTree.read .plain mergedPlain, hread, honly,
    htext, readStrict_of_firstFault? hplain, hkept, hone⟩

end ScriptTree.Transform
