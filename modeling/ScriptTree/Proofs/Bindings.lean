import ScriptTree.Proofs.MarkupCall

/-!
# What an import clause binds

The clause of an import binds **names one by one**: one for the whole module, one for all its names
as an object, or names out of it in a list. Each binding is written as some node, and a part of that
node is the name that it binds. Pruning keeps a binding or leaves it out, so what is left of a
clause can be told from its bindings, and it is always told without failing.

## Main results

* `bindings_eq_append`: the bindings in the list come last.
* `kind_bound_of_mem_bindings`: what is bound is a name.
* `Transform.pruneImport_eq`: what pruning does to an import.
-/

namespace ScriptTree

open List Node
open Node (preorderAll)

/-- A **binding** of an import: the node that is written for it, the name that it binds, the name
that it has in the module, if it stands in the list, and whether it is marked as a type. -/
structure Binding where
  node : Node
  bound : Node
  source : Option Node
  isType : Bool

/-- The binding of an item of the list. -/
def Binding.ofItem (item : Node) : Binding where
  node := item
  bound := ((item.child? .alias).or (item.child? .name)).getD item
  source := some ((item.child? .name).getD item)
  isType := item.hasToken ["type", "typeof"]

/-- The bindings of a **part** of a clause. -/
def bindingsOf (part : Node) : List Binding :=
  if part.kind == "identifier" then [⟨part, part, none, false⟩]
  else if part.kind == "namespace_import" then
    [⟨part, (part.part? "identifier").getD part, none, false⟩]
  else if part.kind == "named_imports" then
    (part.parts.filter (·.kind == "import_specifier")).map .ofItem
  else []

/-- The **bindings** of a clause, in their order. -/
def bindings (clause : Node) : List Binding := clause.parts.flatMap bindingsOf

namespace Binding

/-- Whether a binding stands in the list. -/
def isListed (b : Binding) : Bool := b.source.isSome

end Binding

variable {cs : List Char} {d : Dialect} {tree : SourceTree} {clause part m n : Node} {b : Binding}

theorem isListed_of_mem_bindingsOf (h : b ∈ bindingsOf part) :
    b.isListed = (part.kind == "named_imports") := by
  unfold bindingsOf at h
  split at h
  · next hkind =>
    rw [mem_singleton.1 h, beq_iff_eq.1 hkind]
    rfl
  · split at h
    · next hkind =>
      rw [mem_singleton.1 h, beq_iff_eq.1 hkind]
      rfl
    · split at h
      · next hkind =>
        obtain ⟨item, -, rfl⟩ := mem_map.1 h
        rw [beq_iff_eq.1 hkind]
        rfl
      · simp at h

/-- In a clause the **list comes last**. -/
theorem bindings_eq_append (h : clause.Shaped cs) (hkind : clause.kind = "import_clause") :
    bindings clause
      = (bindings clause).filter (!·.isListed) ++ (bindings clause).filter (·.isListed) := by
  have hlast : ∀ looks ∈ Node.patternsOf "import_clause",
      ∀ l ∈ (looks.filter (·.named)).dropLast, l.kind ≠ "named_imports" := by decide
  have hinit := hlast _ (hkind ▸ h.follows (by rw [hkind]; decide))
  rw [← parts_eq] at hinit
  rcases clause.parts.eq_nil_or_concat with hparts | ⟨init, last, hparts⟩
  · simp [bindings, hparts]
  rw [hparts, concat_eq_append, map_append, map_singleton,
    dropLast_concat] at hinit
  have hunlisted (b) (hb : b ∈ init.flatMap bindingsOf) : b.isListed = false := by
    obtain ⟨part, hpart, hb⟩ := mem_flatMap.1 hb
    rw [isListed_of_mem_bindingsOf hb, beq_eq_false_iff_ne]
    exact hinit _ (mem_map_of_mem hpart)
  have heq : bindings clause = init.flatMap bindingsOf ++ bindingsOf last := by
    simp [bindings, hparts]
  have hself : (init.flatMap bindingsOf).filter (!·.isListed) = init.flatMap bindingsOf :=
    filter_eq_self.2 fun b hb ↦ by simp [hunlisted b hb]
  have hnone : (init.flatMap bindingsOf).filter (·.isListed) = [] :=
    filter_eq_nil_iff.2 fun b hb ↦ by simp [hunlisted b hb]
  rw [heq, filter_append, filter_append, hself, hnone, nil_append]
  cases hlisted : last.kind == "named_imports" with
  | true =>
    have hall (b) (hb : b ∈ bindingsOf last) : b.isListed = true :=
      (isListed_of_mem_bindingsOf hb).trans hlisted
    rw [filter_eq_nil_iff.2 fun b hb ↦ by simp [hall b hb],
      filter_eq_self.2 fun b hb ↦ hall b hb, append_nil]
  | false =>
    have hall (b) (hb : b ∈ bindingsOf last) : b.isListed = false :=
      (isListed_of_mem_bindingsOf hb).trans hlisted
    rw [filter_eq_self.2 fun b hb ↦ by simp [hall b hb],
      filter_eq_nil_iff.2 fun b hb ↦ by simp [hall b hb], append_nil]

theorem mem_preorder_getD {o : Option Node} (h : ∀ m ∈ o, m ∈ n.children) :
    o.getD n ∈ n.preorder := by
  cases o with
  | none => exact n.mem_preorder_self
  | some m => exact mem_preorder_of_mem_children (h m rfl)

/-- A binding is written as a node **below** its part, or as the part, and binds a node in it. -/
theorem mem_preorder_of_mem_bindingsOf (h : b ∈ bindingsOf part) :
    b.node ∈ part.preorder ∧ b.bound ∈ b.node.preorder := by
  unfold bindingsOf at h
  split at h
  · rw [mem_singleton.1 h]
    exact ⟨part.mem_preorder_self, part.mem_preorder_self⟩
  · split at h
    · rw [mem_singleton.1 h]
      exact ⟨part.mem_preorder_self, mem_preorder_getD fun m hm ↦
        mem_of_mem_filter (mem_of_find?_eq_some hm)⟩
    · split at h
      · obtain ⟨item, hitem, rfl⟩ := mem_map.1 h
        refine ⟨mem_preorder_of_mem_children
          (Transform.mem_children_of_parts (mem_of_mem_filter hitem)),
          mem_preorder_getD fun m hm ↦ ?_⟩
        rcases Option.or_eq_some_iff.1 hm with hm | ⟨-, hm⟩
        · exact mem_of_find?_eq_some hm
        · exact mem_of_find?_eq_some hm
      · simp at h

/-- What is bound is a **name**. -/
theorem kind_bound_of_mem_bindingsOf (hshaped : ∀ m ∈ part.preorder, m.Shaped cs)
    (h : b ∈ bindingsOf part) : b.bound.kind = "identifier" := by
  unfold bindingsOf at h
  split at h
  · next hkind =>
    rw [mem_singleton.1 h]
    exact beq_iff_eq.1 hkind
  · split at h
    · next hkind =>
      have hkind := beq_iff_eq.1 hkind
      obtain ⟨m, hm, hmkind⟩ : ∃ m, part.part? "identifier" = some m ∧ m.kind = "identifier" :=
        (hshaped part part.mem_preorder_self).exists_of_looks
          (fun looks ↦ (looks.filter (·.named)).find? (·.kind == "identifier"))
          (part.map_look_part? (by decide)) (by rw [hkind]; decide) (by rw [hkind]; decide)
      rw [mem_singleton.1 h]
      simpa [hm] using hmkind
    · split at h
      · obtain ⟨item, hitem, rfl⟩ := mem_map.1 h
        obtain ⟨hitem, hkind⟩ := mem_filter.1 hitem
        have hkind := beq_iff_eq.1 hkind
        have hitem := hshaped item
          (mem_preorder_of_mem_children (Transform.mem_children_of_parts hitem))
        have hshapedKind : item.kind ∈ Node.shapedKinds := by rw [hkind]; decide
        obtain ⟨m, hm, hmkind⟩ :
            ∃ m, (item.child? .alias).or (item.child? .name) = some m ∧ m.kind = "identifier" :=
          hitem.exists_of_looks (fun looks ↦ (looks.find? (·.role == some .alias)).or
              (looks.find? (·.role == some .name)))
            (by rw [Option.map_or, hitem.child?_eq hshapedKind, hitem.child?_eq hshapedKind])
            (by rw [hkind]; decide) (by rw [hkind]; decide)
        simpa [Binding.ofItem, hm] using hmkind
      · simp at h

theorem mem_preorder_of_mem_bindings (h : b ∈ bindings clause) :
    b.node ∈ preorderAll clause.children ∧ b.bound ∈ b.node.preorder := by
  obtain ⟨part, hpart, hb⟩ := mem_flatMap.1 h
  obtain ⟨hnode, hbound⟩ := mem_preorder_of_mem_bindingsOf hb
  exact ⟨mem_preorderAll.2 ⟨part, Transform.mem_children_of_parts hpart, hnode⟩, hbound⟩

theorem kind_bound_of_mem_bindings (hshaped : ∀ m ∈ clause.preorder, m.Shaped cs)
    (h : b ∈ bindings clause) : b.bound.kind = "identifier" := by
  obtain ⟨part, hpart, hb⟩ := mem_flatMap.1 h
  refine kind_bound_of_mem_bindingsOf (fun m hm ↦ hshaped m ?_) hb
  exact mem_preorder_trans
    (mem_preorder_of_mem_children (Transform.mem_children_of_parts hpart)) hm

/-! ### Pruning -/

/-- Whether a binding is **kept**: it is not marked as a type, and its name is used if that is
asked. -/
def Binding.survives (cs : List Char) (used : Option (List Text)) (b : Binding) : Bool :=
  !b.isType && Transform.isKept used (Transform.ownText cs b.bound)

namespace Transform

/-- The pieces of a clause that is **written anew** with some bindings: those out of the list, and
the list. -/
def clausePieces (cs : List Char) (bs : List Binding) : List Text :=
  (bs.filter (!·.isListed)).map (ownText cs ·.node) ++
    if (bs.filter (·.isListed)).isEmpty then []
    else [("\x7b " : Text) ++ Text.join ", " ((bs.filter (·.isListed)).map (ownText cs ·.node))
      ++ (" \x7d" : Text)]

/-- A clause that is written anew with some bindings. -/
def clauseText (cs : List Char) (bs : List Binding) : Text := Text.join ", " (clausePieces cs bs)

theorem clausePieces_eq_nil_iff (bs : List Binding) : clausePieces cs bs = [] ↔ bs = [] := by
  refine ⟨fun h ↦ eq_nil_iff_forall_not_mem.2 fun b hb ↦ ?_, fun h ↦ by simp [clausePieces, h]⟩
  obtain ⟨hparts, hitems⟩ := append_eq_nil_iff.1 h
  cases hlisted : b.isListed with
  | true =>
    have hmem : b ∈ bs.filter (·.isListed) := mem_filter.2 ⟨hb, hlisted⟩
    rw [if_neg (by simpa using ne_nil_of_mem hmem)] at hitems
    exact absurd hitems (by simp)
  | false =>
    have hmem : b ∈ bs.filter (!·.isListed) := mem_filter.2 ⟨hb, by simp [hlisted]⟩
    exact ne_nil_of_mem hmem (map_eq_nil_iff.1 hparts)

/-- What is **left of some bindings** when they are pruned. -/
structure Leaves (cs : List Char) (used : Option (List Text)) (bs : List Binding) (p : Pruned) :
    Prop where
  parts : p.parts = ((bs.filter (·.survives cs used)).filter (!·.isListed)).map (ownText cs ·.node)
  items : p.items = ((bs.filter (·.survives cs used)).filter (·.isListed)).map (ownText cs ·.node)
  hasList : p.items ≠ [] → p.hasList = true
  changed : p.changed = bs.any (!·.survives cs used)

section Leaves

variable {used : Option (List Text)} {bs : List Binding} {p : Pruned}

theorem leaves_nil (cs : List Char) (used : Option (List Text)) : Leaves cs used [] {} :=
  ⟨rfl, rfl, fun h ↦ absurd rfl h, rfl⟩

theorem Leaves.drop (h : Leaves cs used bs p) (hb : b.survives cs used = false) :
    Leaves cs used (bs ++ [b]) { p with changed := true } := by
  have hfilter : (bs ++ [b]).filter (·.survives cs used) = bs.filter (·.survives cs used) := by
    simp [hb]
  exact ⟨hfilter ▸ h.parts, hfilter ▸ h.items, h.hasList, by simp [hb]⟩

theorem Leaves.keepPart (h : Leaves cs used bs p) (hb : b.survives cs used = true)
    (hlisted : b.isListed = false) :
    Leaves cs used (bs ++ [b]) { p with parts := p.parts ++ [ownText cs b.node] } := by
  refine ⟨?_, ?_, h.hasList, ?_⟩
  · rw [h.parts]
    simp [hb, hlisted]
  · rw [h.items]
    simp [hb, hlisted]
  · rw [h.changed]
    simp [hb]

theorem Leaves.keepItem (h : Leaves cs used bs p) (hb : b.survives cs used = true)
    (hlisted : b.isListed = true) (hlist : p.hasList = true) :
    Leaves cs used (bs ++ [b]) { p with items := p.items ++ [ownText cs b.node] } := by
  refine ⟨?_, ?_, fun _ ↦ hlist, ?_⟩
  · rw [h.parts]
    simp [hb, hlisted]
  · rw [h.items]
    simp [hb, hlisted]
  · rw [h.changed]
    simp [hb]

/-- The pieces that are left are those of the bindings that are **kept**. -/
theorem Leaves.clauseParts_eq (h : Leaves cs used bs p) :
    p.clauseParts = clausePieces cs (bs.filter (·.survives cs used)) := by
  unfold Pruned.clauseParts clausePieces
  rw [← h.parts]
  cases hitems : p.items with
  | nil =>
    have hnone : (bs.filter (·.survives cs used)).filter (·.isListed) = [] := by
      simpa [hitems] using h.items.symm
    simp [hnone]
  | cons t ts =>
    have hsome : (bs.filter (·.survives cs used)).filter (·.isListed) ≠ [] := by
      intro hnone
      simp [h.items, hnone] at hitems
    rw [if_pos (by simp [h.hasList (by simp [hitems])]), if_neg (by simpa using hsome), ← hitems,
      h.items]

end Leaves

section Prune

variable {used : Option (List Text)} {bs : List Binding} {p : Pruned} {item : Node}
  {edits : EditSet}

/-- One **item** of the list is pruned. -/
theorem exists_pruneItem (hover : tree.Over d cs) (hitem : item ∈ tree.root.preorder)
    (h : Leaves cs used bs p) (hlist : p.hasList = true) :
    ∃ p', pruneItem tree used p item = .ok p' ∧ p'.hasList = true ∧
      Leaves cs used (bs ++ ([item].filter (·.kind == "import_specifier")).map .ofItem) p' := by
  have hnode := nodeText_eq_ownText hover hitem
  have hbound : tree.nodeText (Binding.ofItem item).bound
      = .ok (ownText cs (Binding.ofItem item).bound) := by
    refine nodeText_eq_ownText hover (mem_preorder_trans hitem
      (mem_preorder_getD fun m hm ↦ ?_))
    rcases Option.or_eq_some_iff.1 hm with hm | ⟨-, hm⟩
    · exact mem_of_find?_eq_some hm
    · exact mem_of_find?_eq_some hm
  cases hkind : item.kind == "import_specifier" with
  | false =>
    refine ⟨p, ?_, hlist, by simpa [hkind] using h⟩
    simp [pruneItem, bne, hkind]
  | true =>
    simp only [filter_cons, hkind, if_true, filter_nil]
    simp only [pruneItem, bne, hkind, Bool.not_true, Bool.false_eq_true, if_false]
    split
    · next htype =>
      exact ⟨_, rfl, hlist, h.drop (by simp [Binding.survives, Binding.ofItem, htype])⟩
    · next htype =>
      have htype : (Binding.ofItem item).isType = false := by simpa [Binding.ofItem] using htype
      have hbound' : tree.nodeText (((item.child? .alias).or (item.child? .name)).getD item)
          = .ok (ownText cs (Binding.ofItem item).bound) := hbound
      rw [hbound', hnode]
      by_cases hkept : isKept used (ownText cs (Binding.ofItem item).bound) = true
      · have hsurvives : (Binding.ofItem item).survives cs used = true := by
          simp [Binding.survives, htype, hkept]
        exact ⟨_, if_pos hkept, hlist, h.keepItem hsurvives rfl hlist⟩
      · have hsurvives : (Binding.ofItem item).survives cs used = false := by
          simp [Binding.survives, hkept]
        exact ⟨_, if_neg hkept, hlist, h.drop hsurvives⟩

/-- All **items** of the list are pruned. -/
theorem exists_pruneItems (hover : tree.Over d cs) {items : List Node}
    (hitems : ∀ item ∈ items, item ∈ tree.root.preorder) (h : Leaves cs used bs p)
    (hlist : p.hasList = true) :
    ∃ p', items.foldlM (pruneItem tree used) p = .ok p' ∧
      Leaves cs used (bs ++ (items.filter (·.kind == "import_specifier")).map .ofItem) p' := by
  induction items generalizing bs p with
  | nil => exact ⟨p, rfl, by simpa using h⟩
  | cons item items ih =>
    obtain ⟨p₁, hfirst, hlist, h₁⟩ :=
      exists_pruneItem hover (hitems item mem_cons_self) h hlist
    obtain ⟨p', hrest, h'⟩ := ih (fun k hk ↦ hitems k (mem_cons_of_mem _ hk)) h₁ hlist
    refine ⟨p', by rw [foldlM_cons, hfirst]; exact hrest, ?_⟩
    rw [← singleton_append, filter_append, map_append, ← append_assoc]
    exact h'

/-- One **part** of a clause is pruned. -/
theorem exists_prunePart (hover : tree.Over d cs) (hpart : part ∈ tree.root.preorder)
    (h : Leaves cs used bs p) :
    ∃ p', prunePart tree used p part = .ok p' ∧ Leaves cs used (bs ++ bindingsOf part) p' := by
  have hnode := nodeText_eq_ownText hover hpart
  unfold prunePart bindingsOf
  split
  · rw [hnode]
    cases hkept : isKept used (ownText cs part) with
    | true =>
      have hsurvives : Binding.survives cs used ⟨part, part, none, false⟩ = true := hkept
      refine ⟨_, ?_, h.keepPart hsurvives rfl⟩
      simp [bind, Except.bind, hkept]
    | false =>
      have hsurvives : Binding.survives cs used ⟨part, part, none, false⟩ = false := hkept
      refine ⟨_, ?_, h.drop hsurvives⟩
      simp [bind, Except.bind, hkept]
  · split
    · have hbound := nodeText_eq_ownText hover (mem_preorder_trans hpart
        (mem_preorder_getD fun m (hm : part.part? "identifier" = some m) ↦
          mem_of_mem_filter (mem_of_find?_eq_some hm)))
      rw [hnode, hbound]
      by_cases hkept : isKept used (ownText cs ((part.part? "identifier").getD part)) = true
      · have hsurvives : Binding.survives cs used
            ⟨part, (part.part? "identifier").getD part, none, false⟩ = true := hkept
        exact ⟨_, if_pos hkept, h.keepPart hsurvives rfl⟩
      · have hsurvives : Binding.survives cs used
            ⟨part, (part.part? "identifier").getD part, none, false⟩ = false := by
          simpa [Binding.survives] using hkept
        exact ⟨_, if_neg hkept, h.drop hsurvives⟩
    · split
      · refine exists_pruneItems hover (fun item hitem ↦ mem_preorder_of_child hpart
          (mem_children_of_parts hitem)) ?_ rfl
        exact ⟨h.parts, h.items, fun _ ↦ rfl, h.changed⟩
      · exact ⟨p, rfl, by simpa using h⟩

/-- All **parts** of a clause are pruned. -/
theorem exists_pruneParts (hover : tree.Over d cs) {parts : List Node}
    (hparts : ∀ part ∈ parts, part ∈ tree.root.preorder) (h : Leaves cs used bs p) :
    ∃ p', parts.foldlM (prunePart tree used) p = .ok p' ∧
      Leaves cs used (bs ++ parts.flatMap bindingsOf) p' := by
  induction parts generalizing bs p with
  | nil => exact ⟨p, rfl, by simpa using h⟩
  | cons part parts ih =>
    obtain ⟨p₁, hfirst, h₁⟩ := exists_prunePart hover (hparts part mem_cons_self) h
    obtain ⟨p', hrest, h'⟩ := ih (fun k hk ↦ hparts k (mem_cons_of_mem _ hk)) h₁
    refine ⟨p', by rw [foldlM_cons, hfirst]; exact hrest, ?_⟩
    rw [flatMap_cons, ← append_assoc]
    exact h'

/-- The edits with an import **pruned**: as they are if all bindings are kept, with the statement
taken out if none is, and else with the clause written anew. -/
def prunedEdits (cs : List Char) (used : Option (List Text)) (edits : EditSet) (n : Node) :
    EditSet :=
  match n.part? "import_clause" with
  | none => edits
  | some clause =>
    if (bindings clause).all (·.survives cs used) then edits
    else if (bindings clause).any (·.survives cs used) then
      edits.replace clause (clauseText cs ((bindings clause).filter (·.survives cs used)))
    else edits.replace n []

/-- **Pruning** an import always succeeds. -/
theorem pruneImport_eq (hover : tree.Over d cs) (hn : n ∈ tree.root.preorder) :
    pruneImport tree used edits n = .ok (prunedEdits cs used edits n) := by
  unfold pruneImport prunedEdits
  cases hclause : n.part? "import_clause" with
  | none => rfl
  | some clause =>
    obtain ⟨p, hpruned, hleaves⟩ := exists_pruneParts hover
      (fun part hpart ↦ mem_preorder_trans hn (mem_preorder_trans
        (mem_preorder_of_part? hclause)
        (mem_preorder_of_mem_children (mem_children_of_parts hpart))))
      (leaves_nil cs used)
    have hleaves : Leaves cs used (bindings clause) p := hleaves
    have hpieces := hleaves.clauseParts_eq
    have hempty : p.clauseParts.isEmpty = !(bindings clause).any (·.survives cs used) := by
      rw [Bool.eq_iff_iff, List.isEmpty_iff, hpieces, clausePieces_eq_nil_iff]
      simp
    have hall : (!p.changed) = (bindings clause).all (·.survives cs used) := by
      rw [hleaves.changed, ← not_all_eq_any_not, Bool.not_not]
    dsimp only
    rw [hpruned]
    show (if (!p.changed) = true then Except.ok edits
      else if p.clauseParts.isEmpty = true then Except.ok (edits.remove n)
      else Except.ok (edits.replace clause (Text.join ", " p.clauseParts))) = _
    rw [hall, hempty, hpieces]
    cases (bindings clause).all (·.survives cs used) with
    | true => rfl
    | false => cases (bindings clause).any (·.survives cs used) <;> rfl

end Prune

end Transform

end ScriptTree
