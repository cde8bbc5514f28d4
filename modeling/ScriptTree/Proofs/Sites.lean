import ScriptTree.Link.Basic
import ScriptTree.Proofs.Growth
import ScriptTree.Proofs.Outcome

/-!
# Sites of specifiers

Looking for dependencies and linking both walk through a tree and do something at each **site**, a
specifier that is loaded somewhere. What they do does not change where the walk goes, so each walk
is a fold over the sites of the tree, which are gathered here once and for all. In a plain script
both find the same sites.

## Main results

* `SourceTree.walk_eq`: a walk is a fold over what is gathered.
* `allDependencies_eq`: the edges of a tree.
* `edgeAt_eq_linkSite`: plain scripts are linked where their dependencies are found.
* `holds_of_edgeAt`: each site holds a specifier.
-/

namespace ScriptTree

open List Option Node

/-! ### Walks as folds -/

section Walk

variable {ε α σ : Type}

mutual

/-- What is **found** at a node and, where the walk goes on, below it. -/
def Node.gather (site : Node → Except ε (Option α × Visit)) : Node → Except ε (List α)
  | ⟨kind, named, missing, role, start, stop, children⟩ => do
    let (found, next) ← site ⟨kind, named, missing, role, start, stop, children⟩
    match next with
    | .continue => return found.toList ++ (← Node.gatherAll site children)
    | _ => return found.toList

/-- What is found at and below some nodes. -/
def Node.gatherAll (site : Node → Except ε (Option α × Visit)) : List Node → Except ε (List α)
  | [] => .ok []
  | n :: ns => do return (← Node.gather site n) ++ (← Node.gatherAll site ns)

end

/-- A visitor that does **one step** with what is found at a node, and never ends the walk. -/
def Follows (site : Node → Except ε (Option α × Visit)) (step : σ → α → σ)
    (visit : Node → StateT σ (Except ε) Visit) (n : Node) : Prop :=
  (∀ found, site n ≠ .ok (found, .stop)) ∧
    ∀ s, visit n s = (site n).map fun x ↦ (x.2, x.1.toList.foldl step s)

variable {site : Node → Except ε (Option α × Visit)} {step : σ → α → σ}

mutual

theorem Node.walk_eq {visit : Node → StateT σ (Except ε) Visit} :
    ∀ {n : Node}, (∀ m ∈ n.preorder, Follows site step visit m) → ∀ s,
      n.walk visit s = (n.gather site).map fun found ↦ (true, found.foldl step s)
  | ⟨kind, named, missing, role, start, stop, children⟩, h, s => by
    obtain ⟨hstop, hvisit⟩ := h _ (mem_preorder_self _)
    have hbelow : ∀ s, Node.walkAll visit children s = _ :=
      walkAll_eq fun m hm ↦ h m (mem_cons_of_mem _ hm)
    rw [Node.walk, Node.gather]
    simp only [bind, StateT.bind, hvisit]
    cases hsite : site ⟨kind, named, missing, role, start, stop, children⟩ with
    | error e => rfl
    | ok x =>
      obtain ⟨found, next⟩ := x
      cases next with
      | «continue» =>
        simp only [Except.map, Except.bind, hbelow]
        cases Node.gatherAll site children with
        | error e => rfl
        | ok rest => simp [pure, Except.pure]
      | skip => rfl
      | stop => exact absurd hsite (hstop found)

theorem Node.walkAll_eq {visit : Node → StateT σ (Except ε) Visit} :
    ∀ {ns : List Node}, (∀ m ∈ Node.preorderAll ns, Follows site step visit m) → ∀ s,
      Node.walkAll visit ns s
        = (Node.gatherAll site ns).map fun found ↦ (true, found.foldl step s)
  | [], _, _ => rfl
  | n :: ns, h, s => by
    have hn : ∀ s, n.walk visit s = _ :=
      walk_eq fun m hm ↦ h m (mem_append_left _ hm)
    have hns : ∀ s, Node.walkAll visit ns s = _ :=
      walkAll_eq fun m hm ↦ h m (mem_append_right _ hm)
    rw [Node.walkAll, Node.gatherAll]
    simp only [bind, StateT.bind, hn]
    cases n.gather site with
    | error e => rfl
    | ok found =>
      simp only [Except.map, Except.bind, ↓reduceIte, hns]
      cases Node.gatherAll site ns with
      | error e => rfl
      | ok rest => simp [pure, Except.pure]

end

/-- What is **found** in statements that are counted from `index`. -/
def gatherStatements (site : Nat → Node → Except ε (Option α × Visit)) :
    Nat → List Node → Except ε (List α)
  | _, [] => .ok []
  | index, n :: ns => do
    return (← n.gather (site index)) ++ (← gatherStatements site (index + 1) ns)

/-- A walk over statements is a **fold** over what is found. -/
theorem walkStatements_eq_gather {site : Nat → Node → Except ε (Option α × Visit)}
    {visit : Nat → Node → StateT σ (Except ε) Visit} {ns : List Node}
    (h : ∀ i, ∀ m ∈ Node.preorderAll ns, Follows (site i) step (visit i) m) (index : Nat) (s : σ) :
    walkStatements visit index ns s
      = (gatherStatements site index ns).map fun found ↦ (true, found.foldl step s) := by
  induction ns generalizing index s with
  | nil => rfl
  | cons n ns ih =>
    have hn : ∀ s, n.walk (visit index) s = _ :=
      walk_eq fun m hm ↦ h index m (mem_append_left _ hm)
    have hns := ih fun i m hm ↦ h i m (mem_append_right _ hm)
    rw [walkStatements, gatherStatements]
    simp only [bind, StateT.bind, hn]
    cases n.gather (site index) with
    | error e => rfl
    | ok found =>
      simp only [Except.map, Except.bind, ↓reduceIte, hns]
      cases gatherStatements site (index + 1) ns with
      | error e => rfl
      | ok rest => simp [pure, Except.pure]

theorem gatherStatements_eq_gatherAll (index : Nat) (ns : List Node) :
    gatherStatements (fun _ ↦ site) index ns = Node.gatherAll site ns := by
  induction ns generalizing index with
  | nil => rfl
  | cons n ns ih => rw [gatherStatements, Node.gatherAll, ih]

theorem SourceTree.mem_preorder_of_statements {tree : SourceTree} {m : Node}
    (hm : m ∈ Node.preorderAll tree.statements) : m ∈ tree.root.preorder := by
  obtain ⟨n, hn, hm⟩ := mem_preorderAll.1 hm
  have hchild : n ∈ tree.root.children := mem_of_mem_filter (mem_of_mem_filter hn)
  exact mem_preorder_trans (mem_preorder_of_mem_children hchild) hm

/-- A **walk** through a tree is a fold over what is found on the way. -/
theorem SourceTree.walk_eq {tree : SourceTree} {visit : Nat → Node → StateT σ (Except ε) Visit}
    (h : ∀ i, ∀ m ∈ tree.root.preorder, Follows site step (visit i) m) (s : σ) :
    tree.walk visit s
      = (Node.gatherAll site tree.statements).map fun found ↦ (true, found.foldl step s) := by
  rw [← gatherStatements_eq_gatherAll 0]
  exact walkStatements_eq_gather
    (fun i m hm ↦ h i m (SourceTree.mem_preorder_of_statements hm)) 0 s

mutual

/-- Whatever is gathered was **found at a node**. -/
theorem Node.exists_of_mem_gather {x : α} :
    ∀ {n : Node} {found : List α}, n.gather site = .ok found → x ∈ found →
      ∃ m ∈ n.preorder, ∃ next, site m = .ok (some x, next)
  | ⟨kind, named, missing, role, start, stop, children⟩, found, h, hx => by
    rw [Node.gather, bind_eq_ok_iff] at h
    obtain ⟨⟨here, next⟩, hsite, h⟩ := h
    have hself (hx : x ∈ here.toList) : ∃ m ∈ Node.preorder
        ⟨kind, named, missing, role, start, stop, children⟩, ∃ next, site m = .ok (some x, next) :=
      ⟨_, mem_preorder_self _, next, by rw [hsite, mem_toList.1 hx]⟩
    cases next with
    | «continue» =>
      simp only [bind_eq_ok_iff, pure_eq_ok_iff] at h
      obtain ⟨rest, hrest, rfl⟩ := h
      rcases mem_append.1 hx with hx | hx
      · exact hself hx
      · obtain ⟨m, hm, hfound⟩ := exists_of_mem_gatherAll hrest hx
        exact ⟨m, mem_cons_of_mem _ hm, hfound⟩
    | skip =>
      simp only [pure_eq_ok_iff] at h
      exact hself (h ▸ hx)
    | stop =>
      simp only [pure_eq_ok_iff] at h
      exact hself (h ▸ hx)

theorem Node.exists_of_mem_gatherAll {x : α} :
    ∀ {ns : List Node} {found : List α}, Node.gatherAll site ns = .ok found → x ∈ found →
      ∃ m ∈ Node.preorderAll ns, ∃ next, site m = .ok (some x, next)
  | [], found, h, hx => by
    obtain rfl : [] = found := by simpa [Node.gatherAll] using h
    simp at hx
  | n :: ns, found, h, hx => by
    simp only [Node.gatherAll, bind_eq_ok_iff, pure_eq_ok_iff] at h
    obtain ⟨first, hfirst, rest, hrest, rfl⟩ := h
    rcases mem_append.1 hx with hx | hx
    · obtain ⟨m, hm, hfound⟩ := exists_of_mem_gather hfirst hx
      exact ⟨m, mem_append_left _ hm, hfound⟩
    · obtain ⟨m, hm, hfound⟩ := exists_of_mem_gatherAll hrest hx
      exact ⟨m, mem_append_right _ hm, hfound⟩

end

end Walk

/-! ### The sites of a script -/

variable {tree : SourceTree} {n : Node} {spec : SpecifierNode} {mechanism : Mechanism}

/-- A **site**: a specifier in a tree and the mechanism by which it is loaded. -/
abbrev Site := SpecifierNode × Mechanism

/-- The edge at a site; an empty specifier names nothing. -/
def Site.edge? (s : Site) : Option Edge :=
  if s.1.value.isEmpty then none else some ⟨s.1.value, s.2⟩

theorem edgeAt_ne_stop {found : Option Site} : edgeAt tree n ≠ .ok (found, .stop) := by
  intro h
  unfold edgeAt at h
  split at h
  · split at h
    · simp at h
    · simp only [bind_eq_ok_iff] at h
      simp at h
  · split at h
    · simp at h
    · simp only [bind_eq_ok_iff] at h
      simp at h
  · simp only [bind_eq_ok_iff] at h
    simp at h
  · simp at h

theorem follows_addEdge (tree : SourceTree) (n : Node) :
    Follows (edgeAt tree) (fun edges s ↦ edges ++ (Site.edge? s).toList) (addEdge tree) n := by
  refine ⟨fun found ↦ edgeAt_ne_stop, fun edges ↦ ?_⟩
  simp only [addEdge, bind, StateT.bind, liftM, monadLift, MonadLift.monadLift, StateT.lift]
  cases edgeAt tree n with
  | error e => rfl
  | ok x =>
    obtain ⟨found, next⟩ := x
    cases found with
    | none => rfl
    | some s =>
      obtain ⟨⟨value, form, node, start, stop⟩, mechanism⟩ := s
      cases value with
      | nil => simp [Except.bind, Except.map, pure, StateT.pure, Except.pure, Site.edge?]
      | cons c value => rfl

/-- The **edges** of a tree are those at its sites. -/
theorem allDependencies_eq (tree : SourceTree) :
    allDependencies tree
      = (Node.gatherAll (edgeAt tree) tree.statements).map (·.filterMap Site.edge?) := by
  have hfold (found : List Site) (edges : List Edge) :
      found.foldl (fun edges s ↦ edges ++ (Site.edge? s).toList) edges
        = edges ++ found.filterMap Site.edge? := by
    induction found generalizing edges with
    | nil => simp
    | cons s found ih => cases hs : Site.edge? s <;> simp [ih, hs]
  have hwalk : tree.walk (fun _ node ↦ addEdge tree node) [] = _ :=
    SourceTree.walk_eq (fun _ n _ ↦ follows_addEdge tree n) []
  unfold allDependencies
  simp only [StateT.run, hwalk, hfold]
  cases Node.gatherAll (edgeAt tree) tree.statements <;> rfl

/-- A plain script is linked **where its dependencies are found**. -/
theorem edgeAt_eq_linkSite (h : ∀ m ∈ n.children, m.kind ∉ Node.typedKinds) :
    edgeAt tree n = linkSite tree n := by
  have htoken : n.hasToken ["type"] = false := by
    refine any_eq_false.2 fun m hm hmark ↦ h m hm ?_
    obtain ⟨-, hkind⟩ : _ ∧ m.kind = "type" := by simpa using hmark
    rw [hkind]
    decide
  have hclause : n.part? "import_require_clause" = none := by
    refine find?_eq_none.2 fun m hm hkind ↦ h m (mem_of_mem_filter hm) ?_
    rw [beq_iff_eq.1 hkind]
    decide
  have hsource : importSource n = n.child? .source := by
    unfold importSource
    rw [hclause]
    cases n.child? .source <;> rfl
  unfold edgeAt linkSite
  rw [hsource, htoken]
  rfl

/-! ### What a site holds -/

/-- A node that **holds** a specifier: a string, a template, or a template read raw. -/
inductive Holds (tree : SourceTree) : Node → SpecifierNode → Prop
  | string {node : Node} {value : Text} (hkind : node.kind = "string")
      (hvalue : tree.cookedRange (node.start + 1) (node.stop - 1) = .ok value) :
      Holds tree node ⟨value, .string, node, node.start + 1, node.stop - 1⟩
  | template {node : Node} {value : Text} (hkind : node.kind = "template_string")
      (hvalue : tree.cookedRange (templateSegment node).1 (templateSegment node).2 = .ok value) :
      Holds tree node
        ⟨value, .template, node, (templateSegment node).1, (templateSegment node).2⟩
  | raw {node tag template : Node} {value : Text} (htag : node.child? .function = some tag)
      (htemplate : node.child? .arguments = some template)
      (hkind : template.kind = "template_string")
      (hvalue : tree.rangeText (templateSegment template).1 (templateSegment template).2
        = .ok value) :
      Holds tree node
        ⟨value, .raw, node, (templateSegment template).1, (templateSegment template).2⟩

theorem Holds.node_eq (h : Holds tree n spec) : spec.node = n := by
  cases h <;> rfl

theorem holds_of_readSpecifier (h : readSpecifier tree (some n) = .ok (some spec)) :
    Holds tree n spec := by
  unfold readSpecifier at h
  simp only at h
  split_ifs at h with hstring htemplate hcall
  · simp only [bind_eq_ok_iff, pure_eq_ok_iff, Option.some.injEq] at h
    obtain ⟨value, hvalue, rfl⟩ := h
    exact .string (by simpa using hstring) hvalue
  · simp only [bind_eq_ok_iff, pure_eq_ok_iff, Option.some.injEq] at h
    obtain ⟨value, hvalue, rfl⟩ := h
    exact .template (by simpa using htemplate) hvalue
  · simp only [bind_eq_ok_iff] at h
    obtain ⟨isRaw, hraw, h⟩ := h
    split_ifs at h with hisRaw
    · obtain ⟨tag, htag⟩ : ∃ tag, n.child? .function = some tag := by
        cases htag : n.child? .function with
        | none => simp [SourceTree.isRawTag, htag, hisRaw] at hraw
        | some tag => exact ⟨tag, rfl⟩
      split at h
      · next template htemplate =>
        split_ifs at h with hkind
        · simp only [bind_eq_ok_iff, pure_eq_ok_iff, Option.some.injEq] at h
          obtain ⟨value, hvalue, rfl⟩ := h
          exact .raw htag htemplate (by simpa using hkind) hvalue
        · simp at h
      · simp at h
    · simp at h
  · simp at h

theorem mem_children_of_child? {role : Role} {m : Node} (h : n.child? role = some m) :
    m ∈ n.children := mem_of_find?_eq_some h

theorem mem_preorder_of_firstArgument {m : Node} (h : firstArgument n = some m) :
    m ∈ n.preorder := by
  unfold firstArgument at h
  split at h
  · next arguments harguments =>
    split at h
    · have hm : m ∈ arguments.parts := mem_of_head? h
      have hchild : m ∈ arguments.children := mem_of_mem_filter (mem_of_mem_filter hm)
      exact mem_preorder_trans
        (mem_preorder_of_mem_children (mem_children_of_child? harguments))
        (mem_preorder_of_mem_children hchild)
    · simp at h
  · simp at h

theorem mem_preorder_of_importSource {m : Node} (h : importSource n = some m) :
    m ∈ n.preorder := by
  unfold importSource at h
  split at h
  · next source hsource =>
    obtain rfl : source = m := by simpa using h
    exact mem_preorder_of_mem_children (mem_children_of_child? hsource)
  · obtain ⟨clause, hclause, hm⟩ := bind_eq_some_iff.1 h
    have hchild : clause ∈ n.children :=
      mem_of_mem_filter (mem_of_find?_eq_some hclause)
    exact mem_preorder_of_child (mem_preorder_of_mem_children hchild)
      (mem_children_of_child? hm)

/-- A site **below** a node: it holds a specifier there, and is none of the entry. -/
structure Site.IsBelow (tree : SourceTree) (n : Node) (s : Site) : Prop where
  mem : s.1.node ∈ n.preorder
  holds : Holds tree s.1.node s.1
  ne_entry : s.2 ≠ .entry

/-- What is read at an optional node below another is a site below it. -/
theorem isBelow_of_readSpecifier {m : Option Node} (hm : ∀ k, m = some k → k ∈ n.preorder)
    (hmechanism : mechanism ≠ .entry) {found : Option SpecifierNode}
    (h : readSpecifier tree m = .ok found) {s : Site} (hs : found.map (·, mechanism) = some s) :
    s.IsBelow tree n := by
  obtain ⟨spec, rfl, rfl⟩ := map_eq_some_iff.1 hs
  cases m with
  | none => simp [readSpecifier] at h
  | some k =>
    have hholds := holds_of_readSpecifier h
    exact ⟨hholds.node_eq ▸ hm k rfl, hholds.node_eq.symm ▸ hholds, hmechanism⟩

/-- What a call loads is a site below it. -/
theorem isBelow_of_callTarget {s : Site} (h : callTarget tree n = .ok (some s)) :
    s.IsBelow tree n := by
  unfold callTarget at h
  split at h
  · simp at h
  · split_ifs at h with himport
    · simp only [bind_eq_ok_iff, pure_eq_ok_iff] at h
      obtain ⟨found, hfound, hs⟩ := h
      exact isBelow_of_readSpecifier (fun k ↦ mem_preorder_of_firstArgument) (by decide) hfound hs
    · rw [bind_eq_ok_iff] at h
      obtain ⟨isRequire, -, h⟩ := h
      split_ifs at h with hrequire
      · simp only [bind_eq_ok_iff, pure_eq_ok_iff] at h
        obtain ⟨found, hfound, hs⟩ := h
        exact isBelow_of_readSpecifier (fun k ↦ mem_preorder_of_firstArgument) (by decide) hfound hs
      · rw [bind_eq_ok_iff] at h
        obtain ⟨isMain, -, h⟩ := h
        split_ifs at h with hmain
        · simp only [bind_eq_ok_iff, pure_eq_ok_iff] at h
          obtain ⟨found, hfound, hs⟩ := h
          exact isBelow_of_readSpecifier
            (fun k hk ↦ mem_preorder_of_firstArgument (filter_eq_some_iff.1 hk).1)
            (by decide) hfound hs
        · simp at h

/-- Whatever is found at a node is a site below it. -/
theorem isBelow_of_edgeAt {s : Site} {next : Visit} (h : edgeAt tree n = .ok (some s, next)) :
    s.IsBelow tree n := by
  unfold edgeAt at h
  split at h
  · split at h
    · simp at h
    · simp only [bind_eq_ok_iff, pure_eq_ok_iff, Prod.mk.injEq] at h
      obtain ⟨found, hfound, hs, -⟩ := h
      exact isBelow_of_readSpecifier (fun k ↦ mem_preorder_of_importSource) (by decide) hfound hs
  · split at h
    · simp at h
    · simp only [bind_eq_ok_iff, pure_eq_ok_iff, Prod.mk.injEq] at h
      obtain ⟨found, hfound, hs, -⟩ := h
      exact isBelow_of_readSpecifier
        (fun k hk ↦ mem_preorder_of_mem_children (mem_children_of_child? hk)) (by decide)
        hfound hs
  · simp only [bind_eq_ok_iff, pure_eq_ok_iff] at h
    obtain ⟨found, hfound, rfl, -⟩ := h
    exact isBelow_of_callTarget hfound
  · simp at h

/-- Each site **holds** a specifier, at or below the node where it was found. -/
theorem holds_of_edgeAt {s : Site} {next : Visit} (h : edgeAt tree n = .ok (some s, next)) :
    s.1.node ∈ n.preorder ∧ Holds tree s.1.node s.1 :=
  ⟨(isBelow_of_edgeAt h).mem, (isBelow_of_edgeAt h).holds⟩

/-- No edge of a tree is made by the mechanism of the **entry**. -/
theorem ne_entry_of_allDependencies {edges : List Edge} (h : allDependencies tree = .ok edges)
    {e : Edge} (he : e ∈ edges) : e.mechanism ≠ .entry := by
  rw [allDependencies_eq] at h
  obtain ⟨sites, hsites, rfl⟩ := map_eq_ok_iff.1 h
  obtain ⟨s, hs, hedge⟩ := mem_filterMap.1 he
  obtain ⟨m, -, next, hfound⟩ := exists_of_mem_gatherAll hsites hs
  unfold Site.edge? at hedge
  split at hedge
  · cases hedge
  · cases hedge
    exact (isBelow_of_edgeAt hfound).ne_entry

end ScriptTree
