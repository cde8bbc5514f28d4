import ScriptTree.Proofs.Elision

/-!
# Imports that are used as types

A binding of an import that is **used only as a type** is to go with the types. Whether a name is
used is told by the kinds of the nodes around it, and not by what is taken out of the script. So a
name that stands in a part that is taken out counts as used, unless the part or a node in it is of a
kind that only states types: an export of types, an item of a list of exports that is marked as a
type, a cast and a property that is only declared are of no such kind.

## Main results

* `Transform.typeUses_pruned_iff`: which bindings go that are used only as types.
-/

namespace ScriptTree

open List Node

/-! ### How two nodes lie to each other -/

namespace Node

variable {cs : List Char} {m q : Node}

/-- Of two nodes of a tree **one lies in the other**, or they lie apart. -/
theorem nested_or_apart {ns : List Node} {a b : Nat} (hplaced : PlacedIn cs a b ns)
    (hm : m ∈ preorderAll ns) (hq : q ∈ preorderAll ns) :
    m ∈ q.preorder ∨ q ∈ m.preorder ∨ m.stop ≤ q.start ∨ q.stop ≤ m.start := by
  have hreached {k : Node} (hk : k ∈ preorderAll ns) : k ∈ reachedAll (fun _ ↦ false) ns :=
    (mem_reachedAll_or hk).resolve_right (by simp)
  rcases eq_or_precedes hplaced (hreached hm) (hreached hq) with
    rfl | (h | ⟨-, h⟩) | (h | ⟨-, h⟩)
  · exact .inl m.mem_preorder_self
  · exact .inr (.inr (.inl h))
  · exact .inr (.inl (mem_preorder_of_below h))
  · exact .inr (.inr (.inr h))
  · exact .inl (mem_preorder_of_below h)

/-- A node that **covers more** than another, and that too. -/
def Encloses (q m : Node) : Prop :=
  q.start ≤ m.start ∧ m.stop ≤ q.stop ∧ (q.start < m.start ∨ m.stop < q.stop)

instance : DecidableRel Encloses := fun _ _ ↦ inferInstanceAs (Decidable (_ ∧ _ ∧ _))

end Node

namespace Transform

open Node (preorderAll)

variable {tree : SourceTree} {cs : List Char} {d : Dialect} {names : MarkupNames}
  {path : Option Path} {edits edits' : EditSet} {used : Option (List Text)} {n m q : Node}
  {w : Work} {b : Binding} {text : Text}

/-! ### What is taken out -/

/-- The items that go from the list of an export: those that are marked as **types**. -/
def droppedItems (n : Node) : List Node :=
  if n.kind == "export_statement" then
    ((n.part? "export_clause").map exportItems).getD [] |>.filter (·.hasToken ["type"])
  else []

/-- The parts of a script of which **nothing** is written. -/
def removedNodes (tree : SourceTree) : List Node :=
  (reached tree).flatMap fun n ↦ erasedParts n ++ droppedItems n

theorem mem_preorder_of_droppedItems (h : m ∈ droppedItems n) : m ∈ n.preorder := by
  unfold droppedItems at h
  split at h
  · cases hclause : n.part? "export_clause" with
    | none => simp [hclause] at h
    | some clause =>
      rw [hclause] at h
      have hitem : m ∈ exportItems clause := mem_of_mem_filter h
      exact mem_preorder_of_child (mem_preorder_of_part? hclause)
        (mem_children_of_parts (mem_of_mem_filter hitem))
  · simp at h

/-- A name that counts and that stands only in imports and in what is taken out **is taken out**. -/
theorem mem_removed_of_mem_valueNodes (hover : tree.Over d cs) (hm : m ∈ valueNodes tree)
    (honly : (∃ k ∈ preorderAll tree.statements, k.kind = "import_statement" ∧ m ∈ k.preorder) ∨
      ∃ q ∈ removedNodes tree, m ∈ q.preorder) :
    ∃ q ∈ removedNodes tree, m ∈ q.preorder := by
  refine honly.resolve_left ?_
  rintro ⟨k, hk, hkind, hmk⟩
  have hunused : isUnused k = true := by
    rw [isUnused, hkind]
    decide
  exact ((mem_valueNodes_iff hover).1 hm).2 k hk hunused hmk

/-! ### Imports that are not put off -/

/-- What is written for an import of a **whole module**. -/
def requireText (cs : List Char) (clause : Node) : Text :=
  ("const " : Text) ++ ownText cs ((clause.part? "identifier").getD clause)
    ++ (" = require(" : Text) ++ ownText cs ((clause.child? .source).getD clause) ++ (");" : Text)

/-- What is **written for an import** that is not put off. -/
def settledText (cs : List Char) (n : Node) : Text :=
  if n.hasToken ["type", "typeof"] then []
  else ((n.part? "import_require_clause").map (requireText cs)).getD []

/-- The parts of an import that are **taken out**. -/
theorem erasedParts_of_import (hkind : n.kind = "import_statement") :
    erasedParts n = if n.hasToken ["type", "typeof"] then [n] else [] := by
  have hremoved : ¬ removedKinds.contains n.kind = true := by
    rw [hkind]
    decide
  rw [erasedParts, hkind]
  rfl

/-- An import that is not put off is written anew **as a whole**. -/
theorem typedParts_of_settled (hkind : n.kind = "import_statement") (hputOff : isPutOff n = false) :
    typedParts n = [n] := by
  rw [typedParts, erasedParts_of_import hkind]
  cases htoken : n.hasToken ["type", "typeof"] with
  | true => simp [rewrittenParts, hkind, htoken]
  | false =>
    have hrequired : (n.part? "import_require_clause").isSome = true := by
      simpa [isPutOff, hkind, htoken] using hputOff
    simp [rewrittenParts, hkind, htoken, hrequired]

/-- What is written for an import that is not put off is told **by the import** alone. -/
theorem Rewrites.eq_settledText (h : Rewrites tree names edits n n text) (hover : tree.Over d cs)
    (hn : n ∈ tree.root.preorder) (hkind : n.kind = "import_statement") :
    text = settledText cs n := by
  cases h with
  | gone hm =>
    rw [erasedParts_of_import hkind] at hm
    split at hm
    · next htoken => rw [settledText, if_pos htoken]
    · simp at hm
  | assigned _ hkind' => exact absurd (hkind.symm.trans hkind') (by decide)
  | listed _ hkind' => exact absurd (hkind.symm.trans hkind') (by decide)
  | @required clause binding source hm hclause hbinding hsource =>
    have hpart (o : Option Node) (ho : ∀ k ∈ o, k ∈ clause.children) :
        tree.nodeText (o.getD clause) = .ok (ownText cs (o.getD clause)) :=
      nodeText_eq_ownText hover (mem_preorder_trans hn
        (mem_preorder_trans (mem_preorder_of_part? hclause) (mem_preorder_getD ho)))
    have htoken : n.hasToken ["type", "typeof"] = false := by
      by_contra htoken
      simp [rewrittenParts, hkind, htoken] at hm
    rw [hpart (clause.part? "identifier") fun k hk ↦
      mem_of_mem_filter (mem_of_find?_eq_some hk)] at hbinding
    rw [hpart (clause.child? .source) fun k hk ↦ mem_of_find?_eq_some hk] at hsource
    cases hbinding
    cases hsource
    rw [settledText, htoken, hclause]
    rfl
  | renamed _ hkind' => exact absurd (hkind.symm.trans hkind') (by decide)
  | enum _ hkind' => exact absurd (hkind.symm.trans hkind') (by decide)
  | element _ hkind' =>
    rw [hkind] at hkind'
    exact absurd hkind' (by decide)

/-- An import among the statements that is not put off is **replaced**. -/
theorem AllEdits.replacement?_of_settled (h : AllEdits tree names used edits edits')
    (hover : tree.Over d cs) (hn : n ∈ tree.statements) (hkind : n.kind = "import_statement")
    (hputOff : isPutOff n = false) : edits'.replacement? n = some (settledText cs n) := by
  have hreached : n ∈ reached tree := mem_reachedAll_of_mem hn
  have hpassed := isPassedOver_of_import hkind
  have hparts := typedParts_of_settled hkind hputOff
  obtain ⟨k, hk, hnk, hreplaced⟩ := h.replaced n hreached n (by simp [hparts])
  obtain rfl : k = n := by
    rw [preorder_eq] at hk
    refine (mem_cons.1 hk).resolve_right fun hbelow ↦ ?_
    have hshort := length_preorder_lt hbelow
    have hlong := length_preorder_le_of_mem hnk
    omega
  obtain ⟨text, htext⟩ := Option.isSome_iff_exists.1 hreplaced
  obtain ⟨m, hm, q, hq, hkey, hwrites⟩ := h.texts _ (mem_of_lookup htext)
  obtain ⟨hstart, hstop, -⟩ := NodeKey.mk.inj hkey
  have hwidth := start_lt_stop_of_mem hover hreached k.mem_preorder_self
  obtain ⟨hmstart, -, hmstop⟩ := (placed_of_reached hover hm).of_mem_preorder hq
  obtain rfl := (eq_or_apart_of_mem_statements hover hn hpassed hm).resolve_right (by omega)
  rcases hwrites with ⟨hpart, hrewrites⟩ | ⟨hputOff', -⟩
  · rw [hparts, mem_singleton] at hpart
    subst hpart
    have heq := hrewrites.eq_settledText hover (mem_preorder_of_reached hm) hkind
    exact htext.trans (congrArg some heq)
  · rw [hputOff] at hputOff'
    exact absurd hputOff' (by decide)

/-- **Nothing around** an import among the statements is replaced. -/
theorem AllEdits.standsOpen_of_settled (h : AllEdits tree names used edits edits')
    (hover : tree.Over d cs) (hn : n ∈ tree.statements) (hkind : n.kind = "import_statement")
    (hputOff : isPutOff n = false) : StandsOpen edits' tree.root n := by
  intro k hk hbelow
  by_contra hreplaced
  obtain ⟨text, hreplaced⟩ := Option.ne_none_iff_exists'.1 hreplaced
  obtain ⟨m, hm, q, hq, hkey, hwrites⟩ := h.texts _ (mem_of_lookup hreplaced)
  obtain ⟨hqstart, hqstop, hqkind⟩ := NodeKey.mk.inj hkey
  have hpassed := isPassedOver_of_import hkind
  have hwidth := start_lt_stop_of_mem hover (mem_reachedAll_of_mem hn) n.mem_preorder_self
  obtain ⟨hstart, -, hstop⟩ := (hover.placed.of_mem_preorder hk).2.1.of_mem_preorder
    (mem_preorder_of_below hbelow)
  obtain ⟨hmstart, -, hmstop⟩ := (placed_of_reached hover hm).of_mem_preorder hq
  obtain rfl := (eq_or_apart_of_mem_statements hover hn hpassed hm).resolve_right (by omega)
  rcases hwrites with ⟨hpart, -⟩ | ⟨hputOff', -⟩
  · rw [typedParts_of_settled hkind hputOff, mem_singleton] at hpart
    subst hpart
    have hforked : k.kind ∈ Node.forkedKinds := by
      rw [hqkind, hkind]
      decide
    have hnarrow := narrow_of_forked hover hk hforked hbelow
    omega
  · rw [hputOff] at hputOff'
    exact absurd hputOff' (by decide)

/-! ### Names that are used only as types -/

/-- A name that is used **only as a type**: it stands as a name only in imports and in parts of
which nothing is written. -/
def UsedAsType (tree : SourceTree) (cs : List Char) (t : Text) : Prop :=
  ∀ m ∈ preorderAll tree.statements, isName m = true → ownText cs m = t →
    (∃ k ∈ preorderAll tree.statements, k.kind = "import_statement" ∧ m ∈ k.preorder) ∨
    ∃ q ∈ removedNodes tree, m ∈ q.preorder

theorem mem_preorderAll_of_removedNodes (h : q ∈ removedNodes tree) :
    q ∈ preorderAll tree.statements := by
  obtain ⟨n, hn, hq⟩ := mem_flatMap.1 h
  refine mem_preorderAll_trans (mem_preorderAll_of_reachedAll hn) ?_
  rcases mem_append.1 hq with hq | hq
  · exact mem_preorder_of_typedParts (mem_append_left _ hq)
  · exact mem_preorder_of_droppedItems hq

/-- Of a name that is used only as a type markup aside, **what counts** stands in a part of which
nothing is written. -/
theorem UsedAsType.mem_usedTexts_iff {t : Text} (h : UsedAsType tree cs t) (hover : tree.Over d cs)
    (hmarkup : t ∉ markupTexts tree names) :
    t ∈ usedTexts tree cs names ↔
      ∃ q ∈ removedNodes tree, ∃ m ∈ q.preorder, isName m = true ∧ ownText cs m = t ∧
        ∀ k ∈ preorderAll tree.statements, isUnused k = true → m ∉ k.preorder := by
  rw [usedTexts, mem_append, or_iff_right hmarkup, mem_map]
  constructor
  · rintro ⟨m, hm, htext⟩
    obtain ⟨hm, hname⟩ := mem_filter.1 hm
    obtain ⟨hmem, hnone⟩ := (mem_valueNodes_iff hover).1 hm
    obtain ⟨q, hq, hmq⟩ := mem_removed_of_mem_valueNodes hover hm (h m hmem hname htext)
    exact ⟨q, hq, m, hmq, hname, htext, hnone⟩
  · rintro ⟨q, hq, m, hmq, hname, htext, hnone⟩
    have hmem := mem_preorderAll_trans (mem_preorderAll_of_removedNodes hq) hmq
    exact ⟨m, mem_filter.2 ⟨(mem_valueNodes_iff hover).2 ⟨hmem, hnone⟩, hname⟩, htext⟩

/-! ### Main results -/

/-- **Bindings that are used only as types** go, unless the name stands in a part that goes, but in
no node of a kind that only states types. That holds of imports that stand free. An import of types
goes whatever it binds, and one of a whole module stays. -/
theorem typeUses_pruned_iff (hpath : elidedExtensions.contains (extensionOf path) = true)
    (hread : SourceTree.readStrict (dialectOf path) cs = .ok tree)
    (hcollect : collect tree path = .ok w) (names : MarkupNames) :
    ∃ edits, plainEdits tree names true path = .ok edits ∧
      (∀ n ∈ tree.statements, n.kind = "import_statement" →
        (isPutOff n = true → n ∈ reached tree ∧ StandsFree tree n) ∧
        (isPutOff n = false → plain names (Text.ofChars cs) path
          = .ok (writtenBefore tree cs edits n.start ++ settledText cs n
            ++ writtenAfter tree cs edits n.stop))) ∧
      ∀ n ∈ reached tree, isPutOff n = true → StandsFree tree n →
        plain names (Text.ofChars cs) path
          = .ok (writtenBefore tree cs edits n.start ++ importText cs (usedTexts tree cs names) n
            ++ writtenAfter tree cs edits n.stop) ∧
        ∀ clause ∈ n.part? "import_clause", ∀ b ∈ bindings clause,
          UsedAsType tree cs (ownText cs b.bound) →
          ownText cs b.bound ∉ markupTexts tree names →
          (b.survives cs (some (usedTexts tree cs names)) = true ↔ b.isType = false ∧
            ∃ q ∈ removedNodes tree, ∃ m ∈ q.preorder,
              isName m = true ∧ ownText cs m = ownText cs b.bound ∧
              ∀ k ∈ preorderAll tree.statements, isUnused k = true → m ∉ k.preorder) := by
  have hover : tree.Over (dialectOf path) cs :=
    eq_read_of_readStrict hread ▸ over_read (dialectOf path) cs
  obtain ⟨edits, -, hplain⟩ := exists_plainEdits hover hcollect names
  obtain ⟨used, edits₀, -, hall⟩ := exists_allEdits hover hplain
  refine ⟨_, hplain, fun n hn hkind ↦ ⟨fun hputOff ↦ ⟨Node.mem_reachedAll_of_mem hn,
    standsFree_of_mem_statements hover hn hputOff⟩, fun hputOff ↦ ?_⟩,
    fun n hn hputOff hfree ↦
      ⟨plain_eq_of_standsFree hpath hread hover hcollect hplain hn hputOff hfree,
        fun clause hclause b hb htype hmarkup ↦ ?_⟩⟩
  · have hroot := mem_preorder_of_reached (Node.mem_reachedAll_of_mem hn)
    rw [plain_eq_plainTree hread, hpath]
    exact plainTree_eq_of_standsOpen hover hplain hroot
      (hall.standsOpen_of_settled hover hn hkind hputOff)
      (rendered_of_some hover (hall.fits hover)
        (textAt_eq_assignedAt hall.insertions hall.statements) hroot
        (hall.replacement?_of_settled hover hn hkind hputOff))
  · rw [survives_iff, htype.mem_usedTexts_iff hover hmarkup]

/-- That a name is used only as a type can be told **from the ranges** of nodes. -/
theorem usedAsType_of_encloses (hover : tree.Over d cs) {t : Text}
    (h : ∀ m ∈ preorderAll tree.statements, isName m = true → ownText cs m = t →
      (∃ k ∈ preorderAll tree.statements, k.kind = "import_statement" ∧ k.Encloses m) ∨
      ∃ q ∈ removedNodes tree, q.Encloses m) : UsedAsType tree cs t := by
  have hplaced := placedIn_statements hover
  have hinside {m q : Node} (hm : m ∈ preorderAll tree.statements)
      (hq : q ∈ preorderAll tree.statements) (hencloses : q.Encloses m) : m ∈ q.preorder := by
    have hwidth := start_lt_stop_of_mem_statements hover hm
    obtain ⟨hstart, hstop, hstrict⟩ := hencloses
    rcases nested_or_apart hplaced hm hq with h | h | h
    · exact h
    · have hbounds := (hplaced.of_mem_preorderAll hm).2.1.of_mem_preorder h
      omega
    · omega
  intro m hm hname htext
  rcases h m hm hname htext with ⟨k, hk, hkind, hencloses⟩ | ⟨q, hq, hencloses⟩
  · exact .inl ⟨k, hk, hkind, hinside hm hk hencloses⟩
  · exact .inr ⟨q, hq, hinside hm (mem_preorderAll_of_removedNodes hq) hencloses⟩

/-- A script with two imported names that are used only as types, one in an export of types. -/
def exportedType : List Char :=
  "import \x7b T, U \x7d from './t';\nexport type \x7b T \x7d;\nlet x: U;".toList

/-- At a script that keeps one of two imported names, for it stands in a part that is taken out. -/
theorem typeUses_pruned_iff_exported :
    ∃ n ∈ (SourceTree.read .typed exportedType).statements, isPutOff n = true ∧
      ∃ clause ∈ n.part? "import_clause",
        (bindings clause).map (fun b ↦ (ownText exportedType b.bound, b.survives exportedType
            (some (usedTexts (SourceTree.read .typed exportedType) exportedType {}))))
          = [(("T" : Text), true), (("U" : Text), false)] ∧
        ∀ b ∈ bindings clause,
          b.survives exportedType
              (some (usedTexts (SourceTree.read .typed exportedType) exportedType {})) = true →
            ∃ q ∈ removedNodes (SourceTree.read .typed exportedType), ∃ m ∈ q.preorder,
              ownText exportedType m = ownText exportedType b.bound := by
  have hread : SourceTree.readStrict (dialectOf (some typedPath)) exportedType
      = .ok (SourceTree.read .typed exportedType) :=
    readStrict_of_firstFault? (by decide +kernel)
  obtain ⟨w, hcollect, -⟩ : ∃ w,
      collect (SourceTree.read .typed exportedType) (some typedPath) = .ok w ∧ true = true :=
    exists_of_succeedsWith (p := fun _ ↦ true) (by decide +kernel)
  have htype : ∀ t ∈ (["T", "U"] : List Text),
      UsedAsType (SourceTree.read .typed exportedType) exportedType t := fun t ht ↦
    usedAsType_of_encloses (over_read .typed exportedType) (by revert t; decide +kernel)
  have hmarkup : markupTexts (SourceTree.read .typed exportedType) {} = [] := by decide +kernel
  obtain ⟨edits, -, hfree, hwritten⟩ :=
    typeUses_pruned_iff (by decide) hread hcollect {}
  obtain ⟨n, hn, hputOff, clause, hclause, hkept⟩ :
      ∃ n ∈ (SourceTree.read .typed exportedType).statements, isPutOff n = true ∧
      ∃ clause ∈ n.part? "import_clause",
        (bindings clause).map (fun b ↦ (ownText exportedType b.bound, b.survives exportedType
            (some (usedTexts (SourceTree.read .typed exportedType) exportedType {}))))
          = [(("T" : Text), true), (("U" : Text), false)] := by decide +kernel
  refine ⟨n, hn, hputOff, clause, hclause, hkept, fun b hb hsurvives ↦ ?_⟩
  obtain ⟨hreached, hfree⟩ := (hfree n hn (kind_of_isPutOff hputOff)).1 hputOff
  have hbound : ownText exportedType b.bound ∈ (["T", "U"] : List Text) := by
    have hmem := List.mem_map_of_mem (f := Prod.fst) (hkept ▸ List.mem_map_of_mem hb)
    exact hmem
  obtain ⟨-, q, hq, m, hm, -, htext, -⟩ :=
    ((hwritten n hreached hputOff hfree).2 clause hclause b hb (htype _ hbound)
      (by simp [hmarkup])).1 hsurvives
  exact ⟨q, hq, m, hm, htext⟩

/-- A script that only hands on an imported type. -/
def handedOn : List Char := "import \x7b T \x7d from './t';\nexport type \x7b T \x7d;\n".toList

/-- A name that is used only as a type is **kept** when the type is exported. -/
theorem exported_type_kept :
    UsedAsType (SourceTree.read .typed handedOn) handedOn "T" ∧
    markupTexts (SourceTree.read .typed handedOn) {} = [] ∧
    plain {} (Text.ofChars handedOn) (some typedPath)
      = .ok "import \x7b T \x7d from './t';\n\n" := by
  refine ⟨usedAsType_of_encloses (over_read .typed handedOn) (by decide +kernel),
    by decide +kernel, ?_⟩
  rw [plain_eq_map (by decide +kernel)]
  exact eq_ok_of_succeedsWith (by decide +kernel)

end Transform

end ScriptTree
