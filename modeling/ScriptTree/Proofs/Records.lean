import ScriptTree.Proofs.Relink

/-!
# What linking records

Looking for dependencies and linking recognise specifiers in two walks of their own. They differ at
two places only: an export of types is passed over by the first and linked by the second, and a
required module in an import clause is a dependency that is not linked. Neither stands in a plain
script. In every tree without them the replacements that linking **records** on its way are, one by
one, the internal dependencies.

Both walks are reduced to what they find. Linking finds, at a site, the text for its node if the
specifier is internal, and the names that are taken; its edits are what it found, put one after the
other into the empty set (`linkEdits_eq_found`).

## Main results

* `linkEdits_eq_found`: the edits of a link are what it found.
* `recorded_eq_internal`: the replacements that are recorded are the internal dependencies.
-/

namespace ScriptTree

open List hiding get set
open Node

/-! ### Finding things in numbered statements -/

section Gather

variable {ε α β : Type} {site : Nat → Node → Except ε (Option α × Visit)}

/-- Whatever is found was found at a node **of the statement** with its number. -/
theorem exists_statement_of_mem {x : α} {ns : List Node} {index : Nat} {found : List α}
    (h : gatherStatements site index ns = .ok found) (hx : x ∈ found) :
    ∃ i s, ns[i]? = some s ∧ ∃ m ∈ s.preorder, ∃ next, site (index + i) m = .ok (some x, next) := by
  induction ns generalizing index found with
  | nil =>
    obtain rfl : [] = found := by simpa [gatherStatements] using h
    simp at hx
  | cons n ns ih =>
    simp only [gatherStatements, bind_eq_ok_iff, pure_eq_ok_iff] at h
    obtain ⟨first, hfirst, rest, hrest, rfl⟩ := h
    rcases mem_append.1 hx with hx | hx
    · obtain ⟨m, hm, hfound⟩ := exists_of_mem_gather hfirst hx
      exact ⟨0, n, rfl, m, hm, hfound⟩
    · obtain ⟨i, s, hs, m, hm, next, hfound⟩ := ih hrest hx
      refine ⟨i + 1, s, by simpa using hs, m, hm, next, ?_⟩
      rw [← hfound, Nat.add_assoc, Nat.add_comm 1]

/-- Whatever is found in numbered statements was found **at a node**. -/
theorem exists_of_mem_gatherStatements {x : α} {ns : List Node} {index : Nat} {found : List α}
    (h : gatherStatements site index ns = .ok found) (hx : x ∈ found) :
    ∃ i, ∃ m ∈ Node.preorderAll ns, ∃ next, site i m = .ok (some x, next) := by
  obtain ⟨i, s, hs, m, hm, hfound⟩ := exists_statement_of_mem h hx
  exact ⟨index + i, m, mem_preorderAll.2 ⟨s, mem_of_getElem? hs, hm⟩, hfound⟩

variable {γ δ : Type} {lax : Prop} {f : α → β} {fine : Node → Except ε (Option α × Visit)}
  {coarse : Node → Except ε (Option β × Visit)}

/-- One result **seen through** a function is another one. If that is `lax`, a failure may be seen
as anything. -/
def SeenAs (lax : Prop) (g : γ → δ) (x : Except ε γ) (y : Except ε δ) : Prop :=
  y = x.map g ∨ lax ∧ ∃ e, x = .error e

theorem SeenAs.bind {γ' δ' : Type} {g : γ → δ} {g' : γ' → δ'} {x : Except ε γ} {y : Except ε δ}
    {k : γ → Except ε γ'} {l : δ → Except ε δ'} (h : SeenAs lax g x y)
    (hnext : ∀ a, SeenAs lax g' (k a) (l (g a))) : SeenAs lax g' (x >>= k) (y >>= l) := by
  obtain rfl | ⟨hlax, e, rfl⟩ := h
  · cases x with
    | error e => exact .inl rfl
    | ok a => exact hnext a
  · exact .inr ⟨hlax, e, rfl⟩

mutual

/-- If one search is seen as another, so is what it **gathers**. -/
theorem Node.gather_seenAs : ∀ {n : Node},
    (∀ m ∈ n.preorder, SeenAs lax (fun x ↦ (x.1.map f, x.2)) (fine m) (coarse m)) →
    SeenAs lax (List.map f) (n.gather fine) (n.gather coarse)
  | ⟨kind, named, missing, role, start, stop, children⟩, h => by
    rw [Node.gather, Node.gather]
    refine (h _ (mem_preorder_self _)).bind fun x ↦ ?_
    obtain ⟨here, next⟩ := x
    cases next with
    | «continue» =>
      refine (gatherAll_seenAs fun m hm ↦ h m (mem_cons_of_mem _ hm)).bind fun rest ↦ ?_
      cases here <;> exact .inl rfl
    | skip => cases here <;> exact .inl rfl
    | stop => cases here <;> exact .inl rfl

theorem Node.gatherAll_seenAs : ∀ {ns : List Node},
    (∀ m ∈ Node.preorderAll ns, SeenAs lax (fun x ↦ (x.1.map f, x.2)) (fine m) (coarse m)) →
    SeenAs lax (List.map f) (Node.gatherAll fine ns) (Node.gatherAll coarse ns)
  | [], _ => .inl rfl
  | n :: ns, h => by
    refine (gather_seenAs fun m hm ↦ h m (mem_append_left _ hm)).bind fun first ↦ ?_
    refine (gatherAll_seenAs fun m hm ↦ h m (mem_append_right _ hm)).bind fun rest ↦ ?_
    exact .inl (congrArg Except.ok map_append.symm)

end

/-- What is found in numbered statements is seen as what is found **without the numbers**. -/
theorem gatherStatements_seenAs {ns : List Node} (index : Nat)
    (h : ∀ i, ∀ m ∈ Node.preorderAll ns,
      SeenAs lax (fun x ↦ (x.1.map f, x.2)) (site i m) (coarse m)) :
    SeenAs lax (List.map f) (gatherStatements site index ns) (Node.gatherAll coarse ns) := by
  induction ns generalizing index with
  | nil => exact .inl rfl
  | cons n ns ih =>
    refine (gather_seenAs fun m hm ↦ h index m (mem_append_left _ hm)).bind fun first ↦ ?_
    refine (ih (index + 1) fun i m hm ↦ h i m (mem_append_right _ hm)).bind fun rest ↦ ?_
    exact .inl (congrArg Except.ok map_append.symm)

end Gather

/-! ### What linking finds -/

variable {tree : SourceTree} {n : Node} {targets : SpecifierTargets}

/-- What linking **finds** at a node: the site, the text that is recorded for its node if the
specifier is internal, and the names that are taken from a package. -/
structure LinkFound where
  site : Site
  text : Option Text
  taken : Option NamedImport

namespace LinkFound

/-- The specifier that was found, and the mechanism. -/
def edge (f : LinkFound) : Edge := ⟨f.site.1.value, f.site.2⟩

/-- The edits with the replacement that is **recorded**, if there is one. -/
def record (edits : EditSet) (f : LinkFound) : EditSet :=
  match f.text with
  | some text => edits.replace f.site.1.node text
  | none => edits

/-- The work of linking with what was found. -/
def add (w : LinkWork) (f : LinkFound) : LinkWork :=
  { edits := f.record w.edits, imports := w.imports ++ f.taken.toList }

end LinkFound

/-- The text that is recorded at a site, if the specifier is internal. -/
def Site.recorded (tree : SourceTree) (targets : SpecifierTargets) (s : Site) :
    Except Failure (Option Text) :=
  if isInternal s.1.value then
    (writeSpecifier tree s.1 (newSpecifier targets s.1.value s.2)).map some
  else .ok none

/-- The names that a node takes from a package; only imports take any. -/
def takenAt (tree : SourceTree) (n : Node) (index : Nat) (value : Text) :
    Except Failure (Option NamedImport) :=
  if n.kind = "import_statement" then namedImport tree n index value else .ok none

/-- What linking finds at a **node** of the statement with some number. -/
def linkFound (tree : SourceTree) (targets : SpecifierTargets) (index : Nat) (n : Node) :
    Except Failure (Option LinkFound × Visit) := do
  let (found, next) ← linkSite tree n
  match found with
  | none => return (none, next)
  | some s =>
    let text ← Site.recorded tree targets s
    let taken ← takenAt tree n index s.1.value
    return (some ⟨s, text, taken⟩, next)

/-- **All** that linking finds, in the order of the walk. -/
def SourceTree.linkRecords (tree : SourceTree) (targets : SpecifierTargets) :
    Except Failure (List LinkFound) :=
  gatherStatements (linkFound tree targets) 0 tree.statements

/-- The replacements among what was found, by their edges. -/
def recordedEdges (found : List LinkFound) : List Edge :=
  (found.filter (·.text.isSome)).map (·.edge)

theorem linkSite_ne_stop {found : Option Site} : linkSite tree n ≠ .ok (found, .stop) := by
  intro h
  rw [linkSite] at h
  split at h
  · split at h
    · simp at h
    · simp only [bind_eq_ok_iff] at h
      simp at h
  · simp only [bind_eq_ok_iff] at h
    simp at h
  · simp only [bind_eq_ok_iff] at h
    simp at h
  · simp at h

/-- Something is found **at a site**, with the text that is recorded there, and names are taken by
imports only. -/
theorem linkFound_cases {index : Nat} {x : Option LinkFound} {next : Visit}
    (h : linkFound tree targets index n = .ok (x, next)) :
    linkSite tree n = .ok (x.map (·.site), next) ∧
      ∀ f, x = some f → Site.recorded tree targets f.site = .ok f.text ∧
        (n.kind ≠ "import_statement" → f.taken = none) := by
  rw [linkFound, bind_eq_ok_iff] at h
  obtain ⟨⟨found, next⟩, hsite, h⟩ := h
  cases found with
  | none =>
    obtain ⟨rfl, rfl⟩ := Prod.mk.inj (pure_eq_ok_iff.1 h)
    exact ⟨hsite, fun f hf ↦ nomatch hf⟩
  | some s =>
    simp only [bind_eq_ok_iff, pure_eq_ok_iff] at h
    obtain ⟨text, htext, taken, htaken, rfl, rfl⟩ := h
    refine ⟨hsite, ?_⟩
    intro f hf
    cases hf
    refine ⟨htext, ?_⟩
    intro hkind
    rw [takenAt, if_neg hkind] at htaken
    exact (Except.ok.inj htaken).symm

/-- A text is recorded **exactly** for internal specifiers. -/
theorem Site.isSome_recorded {s : Site} {text : Option Text}
    (h : Site.recorded tree targets s = .ok text) : text.isSome = isInternal s.1.value := by
  rw [Site.recorded] at h
  split at h
  · next hinternal =>
    obtain ⟨written, -, rfl⟩ := map_eq_ok_iff.1 h
    exact hinternal.symm
  · next hinternal =>
    cases h
    simpa using hinternal

/-- Recording what was found at a site **relinks** it. -/
theorem LinkFound.record_eq {f : LinkFound} (h : Site.recorded tree targets f.site = .ok f.text)
    (edits : EditSet) : f.record edits = Site.relink tree targets edits f.site := by
  rw [Site.recorded] at h
  rw [LinkFound.record, Site.relink, Site.relinked]
  split at h
  · next hinternal =>
    obtain ⟨written, hwritten, htext⟩ := map_eq_ok_iff.1 h
    rw [if_pos hinternal, hwritten, ← htext]
  · next hinternal =>
    rw [if_neg hinternal, ← Except.ok.inj h]

/-- Linking does **one step** with what it finds at a node. -/
theorem follows_linkFound (tree : SourceTree) (targets : SpecifierTargets) (index : Nat)
    (n : Node) :
    Follows (linkFound tree targets index) LinkFound.add (linkVisit tree targets index) n := by
  refine ⟨fun found h ↦ linkSite_ne_stop (linkFound_cases h).1, fun w ↦ ?_⟩
  simp only [linkVisit, linkFound, bind, StateT.bind, liftM, monadLift, MonadLift.monadLift]
  cases linkSite tree n with
  | error e => rfl
  | ok x =>
    obtain ⟨found, next⟩ := x
    cases found with
    | none => rfl
    | some s =>
      have hrecorded : retarget tree targets s.1 s.2 w.edits
          = (Site.recorded tree targets s).map fun text ↦
              LinkFound.record w.edits ⟨s, text, none⟩ := by
        rw [retarget, Site.recorded]
        split
        · cases writeSpecifier tree s.1 (newSpecifier targets s.1.value s.2) <;> rfl
        · rfl
      simp only [Except.bind, StateT.bind, StateT.lift, get, getThe, MonadStateOf.get,
        StateT.get, pure, Except.pure, bind, hrecorded, takenAt, beq_iff_eq]
      cases Site.recorded tree targets s with
      | error e => rfl
      | ok text =>
        by_cases hkind : n.kind = "import_statement"
        · simp only [hkind, ↓reduceIte, StateT.bind, bind]
          cases namedImport tree n index s.1.value <;> rfl
        · simp only [hkind, Except.map]
          rfl

/-- The **edits** of a link are what it found: the replacements it recorded, and what the names that
are taken from packages need. -/
theorem linkEdits_eq_found (fs : FileSystem) (importer : Path) (tree : SourceTree)
    (targets : SpecifierTargets) :
    linkEdits fs importer tree targets
      = tree.linkRecords targets >>= fun found ↦
          addInterop fs importer tree (found.filterMap (·.taken))
            (found.foldl LinkFound.record {}) := by
  have hfold (found : List LinkFound) (w : LinkWork) :
      found.foldl LinkFound.add w
        = ⟨found.foldl LinkFound.record w.edits, w.imports ++ found.filterMap (·.taken)⟩ := by
    induction found generalizing w with
    | nil => simp
    | cons f found ih => cases htaken : f.taken <;> simp [ih, LinkFound.add, htaken]
  have hwalk : tree.walk (linkVisit tree targets) {} = _ :=
    walkStatements_eq_gather (fun index n _ ↦ follows_linkFound tree targets index n) 0 {}
  simp only [linkEdits, StateT.run, hwalk, hfold]
  rw [SourceTree.linkRecords]
  cases gatherStatements (linkFound tree targets) 0 tree.statements <;> rfl

/-- What linking records **relinks** the sites that it finds. -/
theorem foldl_record_eq {found : List LinkFound} (h : tree.linkRecords targets = .ok found) :
    found.foldl LinkFound.record {} = relinks tree targets (found.map (·.site)) := by
  rw [relinks, foldl_map]
  refine foldl_ext _ _ _ fun edits f hf ↦ ?_
  obtain ⟨i, m, -, next, hfound⟩ := exists_of_mem_gatherStatements h hf
  exact LinkFound.record_eq ((linkFound_cases hfound).2 f rfl).1 edits

/-- A replacement is recorded for **what is internal**, and for nothing else. -/
theorem recordedEdges_eq {found : List LinkFound} (h : tree.linkRecords targets = .ok found) :
    recordedEdges found
      = (internalSites (found.map (·.site))).map fun s ↦ (⟨s.1.value, s.2⟩ : Edge) := by
  have htext : ∀ f ∈ found, f.text.isSome = isInternal f.site.1.value := by
    intro f hf
    obtain ⟨i, m, -, next, hfound⟩ := exists_of_mem_gatherStatements h hf
    exact Site.isSome_recorded ((linkFound_cases hfound).2 f rfl).1
  rw [internalSites, filter_map, map_map]
  exact congrArg _ (filter_congr htext)

/-! ### Trees that both walks read alike -/

/-- Trees **without types** in what they load: no export of types, and no module that is required in
the clause of an import. -/
structure SourceTree.IsUntyped (tree : SourceTree) : Prop where
  exports : ∀ n ∈ tree.root.preorder, n.kind = "export_statement" → n.hasToken ["type"] = false
  imports : ∀ n ∈ tree.root.preorder, n.kind = "import_statement" →
    n.part? "import_require_clause" = none

/-- Every **plain** script, well formed or not, is without types. -/
theorem isUntyped_read (cs : List Char) : (SourceTree.read .plain cs).IsUntyped := by
  have hchild {n m : Node} (hn : n ∈ (SourceTree.read .plain cs).root.preorder)
      (hm : m ∈ n.children) : m.kind ∉ Node.typedKinds :=
    ((over_read .plain cs).fine m
      (mem_preorder_of_child hn hm)).plain rfl
  constructor
  · intro n hn _
    refine any_eq_false.2 fun m hm hmark ↦ hchild hn hm ?_
    obtain ⟨-, hkind⟩ : _ ∧ m.kind = "type" := by simpa using hmark
    rw [hkind]
    decide
  · intro n hn _
    refine find?_eq_none.2 fun m hm hkind ↦ hchild hn (mem_of_mem_filter hm) ?_
    rw [beq_iff_eq.1 hkind]
    decide

namespace SourceTree.IsUntyped

/-- Both walks find the **same site** at every node of such a tree. -/
theorem edgeAt_eq (h : tree.IsUntyped) (hn : n ∈ tree.root.preorder) :
    edgeAt tree n = linkSite tree n := by
  by_cases himport : n.kind = "import_statement"
  · have hsource : importSource n = n.child? .source := by
      rw [importSource, h.imports n hn himport]
      cases n.child? .source <;> rfl
    simp only [edgeAt, linkSite, himport, hsource]
  by_cases hexport : n.kind = "export_statement"
  · simp only [edgeAt, linkSite, hexport, h.exports n hn hexport, Bool.false_eq_true, ↓reduceIte]
  by_cases hcall : n.kind = "call_expression"
  · simp only [edgeAt, linkSite, hcall]
  · simp only [edgeAt, linkSite]

/-- What linking finds are the **sites** of the tree. -/
theorem gatherAll_of_linkRecords (h : tree.IsUntyped) {found : List LinkFound}
    (hfound : tree.linkRecords targets = .ok found) :
    Node.gatherAll (edgeAt tree) tree.statements = .ok (found.map (·.site)) := by
  have hseen : SeenAs True (List.map (·.site)) (tree.linkRecords targets)
      (Node.gatherAll (edgeAt tree) tree.statements) := by
    refine gatherStatements_seenAs 0 fun i m hm ↦ ?_
    rw [h.edgeAt_eq (SourceTree.mem_preorder_of_statements hm)]
    cases hx : linkFound tree targets i m with
    | error e => exact .inr ⟨trivial, e, rfl⟩
    | ok x => exact .inl (linkFound_cases hx).1
  simpa [SeenAs, hfound, Except.map] using hseen

end SourceTree.IsUntyped

/-- What a node takes from a package can always be read. -/
theorem exists_takenAt {d : Dialect} {cs : List Char} (h : tree.Over d cs)
    (hn : n ∈ tree.root.preorder) (index : Nat) (value : Text) :
    ∃ taken, takenAt tree n index value = .ok taken := by
  rw [takenAt, namedImport]
  split_ifs
  · exact ⟨none, rfl⟩
  · cases hclause : n.children.find? (fun c => c.named && c.kind == "import_clause") with
    | none => exact ⟨none, rfl⟩
    | some clause =>
      obtain ⟨found, hfound⟩ := exists_ofParts_clause h hn hclause
      simp only [hfound, bind]
      cases found with
      | none => exact ⟨none, rfl⟩
      | some names =>
        show ∃ taken, (if names.bindings.isEmpty then _ else _) = _
        split <;> exact ⟨_, rfl⟩
  · exact ⟨none, rfl⟩

/-- In a tree that was read, linking fails **only where** the sites cannot be found. -/
theorem edgeAt_eq_linkFound {d : Dialect} {cs : List Char} (h : tree.Over d cs)
    (huntyped : tree.IsUntyped) (hn : n ∈ tree.root.preorder) (index : Nat) :
    edgeAt tree n
      = (linkFound tree targets index n).map fun x ↦ (x.1.map (·.site), x.2) := by
  have hsites := huntyped.edgeAt_eq hn
  rw [linkFound, ← hsites]
  cases hsite : edgeAt tree n with
  | error e => rfl
  | ok x =>
    obtain ⟨found, next⟩ := x
    cases found with
    | none => rfl
    | some s =>
      obtain ⟨hmem, hholds⟩ := holds_of_edgeAt hsite
      have hwrite := (writeSpecifier_eq_relinked targets h
        ⟨mem_preorder_trans hn hmem, hholds⟩).1
      obtain ⟨text, htext⟩ : ∃ text, Site.recorded tree targets s = .ok text := by
        rw [Site.recorded, hwrite]
        split <;> exact ⟨_, rfl⟩
      obtain ⟨taken, htaken⟩ := exists_takenAt h hn index s.1.value
      simp only [bind, Except.bind, htext, htaken]
      rfl

theorem gatherAll_eq_linkRecords {d : Dialect} {cs : List Char} (h : tree.Over d cs)
    (huntyped : tree.IsUntyped) (targets : SpecifierTargets) :
    Node.gatherAll (edgeAt tree) tree.statements
      = (tree.linkRecords targets).map (List.map (·.site)) := by
  have hseen : SeenAs False _ (tree.linkRecords targets) _ := gatherStatements_seenAs 0
    fun i _ hm ↦ .inl (edgeAt_eq_linkFound h huntyped (SourceTree.mem_preorder_of_statements hm) i)
  exact hseen.resolve_right fun h ↦ h.1

/-! ### Internal dependencies -/

/-- Nothing of the **host** is internal. -/
theorem not_isBuiltin_of_isInternal {specifier : Text} (h : isInternal specifier = true) :
    isBuiltin specifier = false := by
  have hmodules : ∀ s ∈ builtinModules, isInternal s = false := by decide
  refine Bool.or_eq_false_iff.2 ⟨?_, ?_⟩
  · by_contra hnode
    obtain ⟨rest, rfl⟩ := List.isPrefixOf_iff_prefix.1 (eq_true_of_ne_false hnode)
    exact Bool.noConfusion (h : false = true)
  · by_contra hmem
    have := hmodules specifier (contains_iff_mem.1 (eq_true_of_ne_false hmem))
    rw [h] at this
    cases this

theorem dependencies_filter_isInternal {edges : List Edge} (h : allDependencies tree = .ok edges)
    (includeBuiltins : Bool) :
    ∃ shown, dependencies tree includeBuiltins = .ok shown ∧
      shown.filter Edge.isInternal = edges.filter Edge.isInternal := by
  rw [dependencies, h]
  refine ⟨_, rfl, ?_⟩
  cases includeBuiltins with
  | true => rfl
  | false =>
    show (edges.filter (!·.isBuiltin)).filter Edge.isInternal = _
    rw [filter_filter]
    refine filter_congr fun e _ ↦ ?_
    cases hinternal : e.isInternal with
    | false => rfl
    | true => simp [Edge.isBuiltin, not_isBuiltin_of_isInternal hinternal]

/-- **Linking records exactly the internal dependencies.** Plain scripts are without types, and in a
tree without types the edits of a link are those that it finds on its way, and the replacements
among these, in their order, are for the internal edges of the tree, whether or not modules of the
host are listed. In a tree that was read from a text, linking finds all of them unless the edges
themselves cannot be read, and then fails in the same way. -/
theorem recorded_eq_internal :
    (∀ cs, (SourceTree.read .plain cs).IsUntyped) ∧
    ∀ {tree : SourceTree}, tree.IsUntyped → ∀ targets : SpecifierTargets,
      (∀ fs importer, linkEdits fs importer tree targets
        = tree.linkRecords targets >>= fun found ↦
            addInterop fs importer tree (found.filterMap (·.taken))
              (found.foldl LinkFound.record {})) ∧
      (∀ found, tree.linkRecords targets = .ok found → ∀ includeBuiltins,
        ∃ edges, dependencies tree includeBuiltins = .ok edges ∧
          recordedEdges found = edges.filter Edge.isInternal) ∧
      ∀ d cs, tree = SourceTree.read d cs → ∀ includeBuiltins,
        (∀ edges, dependencies tree includeBuiltins = .ok edges →
          ∃ found, tree.linkRecords targets = .ok found) ∧
        ∀ e, dependencies tree includeBuiltins = .error e →
          tree.linkRecords targets = .error e := by
  refine ⟨isUntyped_read, fun {tree} h targets ↦
    ⟨fun fs importer ↦ linkEdits_eq_found fs importer tree targets, ?_, ?_⟩⟩
  · intro found hfound includeBuiltins
    have hsites := h.gatherAll_of_linkRecords hfound
    have hall : allDependencies tree
        = .ok ((found.map (·.site)).filterMap Site.edge?) := by
      rw [allDependencies_eq, hsites]
      rfl
    obtain ⟨edges, hedges, hinternal⟩ := dependencies_filter_isInternal hall includeBuiltins
    refine ⟨edges, hedges, ?_⟩
    rw [recordedEdges_eq hfound, edges_internalSites, hinternal]
  · rintro d cs rfl includeBuiltins
    have hsites := gatherAll_eq_linkRecords (over_read d cs) h targets
    simp only [dependencies, allDependencies_eq, hsites]
    cases (SourceTree.read d cs).linkRecords targets with
    | error e =>
      refine ⟨fun edges hedges ↦ (nomatch hedges), fun e' he ↦ ?_⟩
      exact congrArg Except.error (Except.error.inj he)
    | ok found => exact ⟨fun edges _ ↦ ⟨found, rfl⟩, fun e he ↦ nomatch he⟩

/-- A script that loads a file in a nested call, a module of the host and names of a package. -/
def nestedLoads : List Char :=
  "import { a } from 'pkg'; export * from './b'; f(require('./c'), require('fs'));".toList

/-- At a script with imports, exports and nested calls. -/
theorem recorded_nestedLoads :
    (SourceTree.read .plain nestedLoads).IsUntyped ∧
      ∃ found, (SourceTree.read .plain nestedLoads).linkRecords [] = .ok found ∧
        recordedEdges found = [⟨"./b", .imported⟩, ⟨"./c", .required⟩] := by
  obtain ⟨hread, hall⟩ := recorded_eq_internal
  obtain ⟨-, hsome, hread'⟩ := hall (hread nestedLoads) []
  have hedges : dependencies (SourceTree.read .plain nestedLoads) true
      = .ok [⟨"pkg", .imported⟩, ⟨"./b", .imported⟩, ⟨"./c", .required⟩, ⟨"fs", .required⟩] := by
    decide +kernel
  obtain ⟨found, hfound⟩ := (hread' _ _ rfl true).1 _ hedges
  obtain ⟨edges, hedges', hrecorded⟩ := hsome found hfound true
  refine ⟨hread nestedLoads, found, hfound, ?_⟩
  obtain rfl := Except.ok.inj (hedges.symm.trans hedges')
  rw [hrecorded]
  decide +kernel

end ScriptTree
