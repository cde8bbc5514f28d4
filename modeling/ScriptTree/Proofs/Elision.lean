import ScriptTree.Proofs.Bindings
import ScriptTree.Proofs.Surroundings
import ScriptTree.Proofs.Usage

/-!
# Elided imports

In a typed script the bindings of imports that are **not used** go. What is written for an import is
told here from its bindings and from the names in use. An import that lies in a part which is taken
out or written anew goes or stays with that part, so it has to stand free; every import among the
statements of a script does.

## Main results

* `Transform.standsFree_of_mem_statements`: imports among the statements stand free.
* `Transform.imports_pruned_exactly`: which bindings are kept, and what is written for an import.
-/

namespace ScriptTree.Transform

open List Option Node
open Utf8 (IsBoundary size)
open Node (preorderAll)

variable {tree : SourceTree} {cs : List Char} {d : Dialect} {names : MarkupNames}
  {path : Option Path} {edits edits' : EditSet} {used : Option (List Text)} {n m q : Node}
  {w : Work}

/-! ### Imports that stand free -/

/-- An import that **stands free**: it does not lie in a part that is taken out or written anew, and
no constructor puts anything into it. -/
structure StandsFree (tree : SourceTree) (n : Node) : Prop where
  typed : ∀ m ∈ reached tree, ∀ q ∈ typedParts m, ¬ (q.start ≤ n.start ∧ n.stop ≤ q.stop)
  assigned : ∀ m ∈ reached tree, ∀ i, propertyInsertion tree m = some i →
    ¬ ((n.start : Int) < i.1 ∧ i.1 < n.stop)

theorem isPassedOver_of_import (hkind : n.kind = "import_statement") : isPassedOver n = true := by
  rw [isPassedOver, hkind]
  rfl

theorem isPassedOver_of_isPutOff (h : isPutOff n = true) : isPassedOver n = true :=
  isPassedOver_of_import (kind_of_isPutOff h)

theorem mem_forkedKinds_of_isPutOff (h : isPutOff n = true) : n.kind ∈ Node.forkedKinds := by
  rw [kind_of_isPutOff h]
  decide

theorem start_lt_stop_of_mem (hover : tree.Over d cs) (hn : n ∈ reached tree)
    (hm : m ∈ n.preorder) : m.start < m.stop :=
  hover.wide m (mem_preorderAll_trans (mem_preorderAll_of_reached hn) hm)

/-- Where a node that is reached lies to one that is **passed over**. -/
theorem lies_of_isPassedOver (hover : tree.Over d cs) (hn : n ∈ reached tree)
    (hpassed : isPassedOver n = true) (hm : m ∈ reached tree) :
    m = n ∨ m.stop ≤ n.start ∨ n.stop ≤ m.start ∨
      isPassedOver m = false ∧ n ∈ preorderAll m.children := by
  obtain ⟨before, after, hsplit⟩ := append_of_mem hn
  have hlies := precedes_of_reached hover hsplit
  rw [hsplit] at hm
  rcases mem_append.1 hm with hm | hm
  · rcases hlies.1 m hm with h | h
    · exact .inr (.inl h)
    · exact .inr (.inr (.inr h))
  · rcases mem_cons.1 hm with rfl | hm
    · exact .inl rfl
    · exact .inr (.inr (.inl (stop_le_start_of_isPassedOver hover hsplit hpassed hm)))

/-- A node that is reached is **apart** from a statement that is passed over, or is the
statement. -/
theorem eq_or_apart_of_mem_statements (hover : tree.Over d cs) (hn : n ∈ tree.statements)
    (hpassed : isPassedOver n = true) (hm : m ∈ reached tree) :
    m = n ∨ m.stop ≤ n.start ∨ n.stop ≤ m.start := by
  have hstatements := placedIn_statements hover
  rcases lies_of_isPassedOver hover (mem_reachedAll_of_mem hn) hpassed hm with
    h | h | h | ⟨-, h⟩
  · exact .inl h
  · exact .inr (.inl h)
  · exact .inr (.inr h)
  · obtain ⟨s, hs, hms⟩ := mem_preorderAll.1 (mem_preorderAll_of_reachedAll hm)
    have hns := mem_preorder_trans hms (mem_preorder_of_below h)
    have hwidth := start_lt_stop_of_mem hover (mem_reachedAll_of_mem hn) n.mem_preorder_self
    rcases apart_of_mem hstatements hs hn with rfl | hlies
    · have hshort := length_preorder_lt h
      have hlong := length_preorder_le_of_mem hms
      omega
    · obtain ⟨hstart, -, hstop⟩ := (hstatements.of_mem hs).2.1.of_mem_preorder hns
      omega

/-- An import **among the statements** of a script stands free. -/
theorem standsFree_of_mem_statements (hover : tree.Over d cs) (hn : n ∈ tree.statements)
    (hputOff : isPutOff n = true) : StandsFree tree n := by
  have hroot := mem_preorder_of_reached (mem_reachedAll_of_mem hn)
  have hwidth := start_lt_stop_of_mem hover (mem_reachedAll_of_mem hn) n.mem_preorder_self
  have hapart (m) (hm : m ∈ reached tree) :=
    eq_or_apart_of_mem_statements hover hn (isPassedOver_of_isPutOff hputOff) hm
  refine ⟨fun m hm q hq hencloses ↦ ?_, fun m hm i hi hinside ↦ ?_⟩
  · rcases hapart m hm with rfl | hlies
    · rw [typedParts_of_isPutOff hputOff, mem_toList, filter_eq_some_iff] at hq
      have hclause := mem_of_mem_filter (mem_of_find?_eq_some hq.1)
      have hnarrow := narrow_of_forked hover hroot (mem_forkedKinds_of_isPutOff hputOff)
        (mem_preorderAll_of_mem hclause)
      omega
    · obtain ⟨hstart, -, hstop⟩ := (placed_of_reached hover hm).of_mem_preorder
        (mem_preorder_of_typedParts hq)
      omega
  · rcases hapart m hm with rfl | hlies
    · simp [propertyInsertion, kind_of_isPutOff hputOff] at hi
    · obtain ⟨offset, hoffset, -, hstart, hstop⟩ :=
        bounds_of_propertyInsertion (placed_of_reached hover hm) hi
      omega

/-! ### What is replaced in an import -/

/-- Pruning one import leaves what lies **apart** from it as it is. -/
theorem replacement?_prunedEdits_of_apart (hover : tree.Over d cs) (hn : n ∈ reached tree)
    (hm : m.start < m.stop) (hapart : m.stop ≤ n.start ∨ n.stop ≤ m.start) :
    (prunedEdits cs used edits n).replacement? m = edits.replacement? m := by
  have hkey {k : Node} (hk : k ∈ n.preorder) : m.key ≠ k.key := by
    obtain ⟨hstart, -, hstop⟩ := (placed_of_reached hover hn).of_mem_preorder hk
    intro hkey
    simp only [Node.key, NodeKey.mk.injEq] at hkey
    omega
  unfold prunedEdits
  split
  · rfl
  · next clause hclause =>
    split
    · rfl
    · split
      · rw [EditSet.replacement?_replace, if_neg (hkey (mem_preorder_of_part? hclause))]
      · rw [EditSet.replacement?_replace, if_neg (hkey n.mem_preorder_self)]

theorem replacement?_prunedEdits_congr (h : edits.replacement? m = edits'.replacement? m) :
    (prunedEdits cs used edits n).replacement? m
      = (prunedEdits cs used edits' n).replacement? m := by
  unfold prunedEdits
  split
  · exact h
  · split
    · exact h
    · split <;> rw [EditSet.replacement?_replace, EditSet.replacement?_replace, h]

/-- Pruning imports that lie **apart** from a node leaves it as it is. -/
theorem replacement?_foldl_prunedEdits (hover : tree.Over d cs) {imports : List Node}
    (himports : ∀ k ∈ imports, k ∈ reached tree ∧ (m.stop ≤ k.start ∨ k.stop ≤ m.start))
    (hm : m.start < m.stop) :
    (imports.foldl (prunedEdits cs used) edits).replacement? m = edits.replacement? m := by
  induction imports generalizing edits with
  | nil => rfl
  | cons k imports ih =>
    obtain ⟨hk, hapart⟩ := himports k mem_cons_self
    rw [foldl_cons, ih fun q hq ↦ himports q (mem_cons_of_mem _ hq),
      replacement?_prunedEdits_of_apart hover hk hm hapart]

/-- Before imports are pruned **nothing** is replaced in one that stands free. -/
theorem Compiled.replacement?_of_standsFree (h : Compiled tree names edits) (hover : tree.Over d cs)
    (hn : n ∈ reached tree) (hputOff : isPutOff n = true) (hfree : StandsFree tree n)
    (hm : m ∈ n.preorder) : edits.replacement? m = none := by
  rcases mem_preorder.1 hm with rfl | hm
  · by_contra hreplaced
    obtain ⟨text, hreplaced⟩ := ne_none_iff_exists'.1 hreplaced
    obtain ⟨k, hk, -, q, hq, hkey, -⟩ := h.texts _ (mem_of_lookup hreplaced)
    simp only [Node.key, NodeKey.mk.injEq] at hkey
    exact hfree.typed k hk q hq (by omega)
  · exact h.replacement?_eq_none hover hn (isPassedOver_of_isPutOff hputOff)
      (mem_forkedKinds_of_isPutOff hputOff) (.inl hputOff) hm

/-- In an import that stands free just that is replaced which pruning **it alone** replaces. -/
theorem Collected.replacement?_of_standsFree (h : Collected tree names (reached tree) w)
    (hcompiled : Compiled tree names edits) (hover : tree.Over d cs) (hn : n ∈ reached tree)
    (hputOff : isPutOff n = true) (hfree : StandsFree tree n) (hm : m ∈ n.preorder) :
    (w.imports.foldl (prunedEdits cs used) edits).replacement? m
      = (prunedEdits cs used {} n).replacement? m := by
  have hpassed := isPassedOver_of_isPutOff hputOff
  have hwidth := start_lt_stop_of_mem hover hn hm
  obtain ⟨hstart, -, hstop⟩ := (placed_of_reached hover hn).of_mem_preorder hm
  obtain ⟨before, after, hsplit⟩ := append_of_mem hn
  have hprecedes := precedes_of_reached hover hsplit
  have himports : w.imports = before.filter isPutOff ++ n :: after.filter isPutOff := by
    rw [h.imports, hsplit, filter_append, filter_cons_of_pos hputOff]
  have hbefore (k) (hk : k ∈ before.filter isPutOff) :
      k ∈ reached tree ∧ (m.stop ≤ k.start ∨ k.stop ≤ m.start) := by
    obtain ⟨hk, hkPutOff⟩ := mem_filter.1 hk
    have hlies := (hprecedes.1 k hk).resolve_right
      (by simp [isPassedOver_of_isPutOff hkPutOff])
    exact ⟨by simp [hsplit, hk], .inr (by omega)⟩
  have hafter (k) (hk : k ∈ after.filter isPutOff) :
      k ∈ reached tree ∧ (m.stop ≤ k.start ∨ k.stop ≤ m.start) := by
    obtain ⟨hk, -⟩ := mem_filter.1 hk
    have hlies := stop_le_start_of_isPassedOver hover hsplit hpassed hk
    exact ⟨by simp [hsplit, hk], .inl (by omega)⟩
  rw [himports, foldl_append, foldl_cons,
    replacement?_foldl_prunedEdits hover hafter hwidth]
  refine replacement?_prunedEdits_congr ?_
  rw [replacement?_foldl_prunedEdits hover hbefore hwidth,
    hcompiled.replacement?_of_standsFree hover hn hputOff hfree hm]
  rfl

/-- **Nothing around** an import that stands free is replaced. -/
theorem AllEdits.standsOpen (h : AllEdits tree names used edits edits') (hover : tree.Over d cs)
    (hn : n ∈ reached tree) (hputOff : isPutOff n = true) (hfree : StandsFree tree n) :
    StandsOpen edits' tree.root n := by
  intro k hk hbelow
  by_contra hreplaced
  obtain ⟨text, hreplaced⟩ := ne_none_iff_exists'.1 hreplaced
  obtain ⟨m, hm, q, hq, hkey, hwrites⟩ := h.texts _ (mem_of_lookup hreplaced)
  have hwidth := start_lt_stop_of_mem hover hn n.mem_preorder_self
  obtain ⟨hstart, -, hstop⟩ := (hover.placed.of_mem_preorder hk).2.1.of_mem_preorder
    (mem_preorder_of_below hbelow)
  obtain ⟨hqstart, hqstop, hkind⟩ := NodeKey.mk.inj hkey
  rcases hwrites with ⟨htyped, -⟩ | ⟨hmPutOff, hprunes⟩
  · exact hfree.typed m hm q htyped (by omega)
  · -- Another import lies apart, so it is this one that would be pruned around itself.
    obtain ⟨hmstart, -, hmstop⟩ := (placed_of_reached hover hm).of_mem_preorder hq
    rcases lies_of_isPassedOver hover hn (isPassedOver_of_isPutOff hputOff) hm with
      rfl | hlies | hlies | ⟨hpassed, -⟩
    · rcases mem_preorder.1 hq with rfl | hq
      · have hforked : k.kind ∈ Node.forkedKinds := hkind ▸ mem_forkedKinds_of_isPutOff hputOff
        have hnarrow := narrow_of_forked hover hk hforked hbelow
        omega
      · have hnarrow := narrow_of_forked hover (mem_preorder_of_reached hm)
          (mem_forkedKinds_of_isPutOff hputOff) hq
        omega
    · omega
    · omega
    · rw [isPassedOver_of_isPutOff hmPutOff] at hpassed
      exact absurd hpassed (by decide)

/-! ### What is written for an import -/

/-- What is **written for an import** when it is known which names are used: the import as it stands
if all its bindings are kept, nothing if there are bindings and none is kept, and else the import
with its clause written anew. -/
def importText (cs : List Char) (used : List Text) (n : Node) : Text :=
  match n.part? "import_clause" with
  | none => ownText cs n
  | some clause =>
    if (bindings clause).all (·.survives cs (some used)) then ownText cs n
    else if (bindings clause).any (·.survives cs (some used)) then
      scriptText cs n.start clause.start
        ++ clauseText cs ((bindings clause).filter (·.survives cs (some used)))
        ++ scriptText cs clause.stop n.stop
    else []

/-- The patches that pruning gives rise to write **the import** as told. -/
theorem spliced_prunedEdits (hover : tree.Over d cs) (hn : n ∈ reached tree)
    (hkind : n.kind = "import_statement") (used : List Text) :
    spliced cs (n.patches (prunedEdits cs (some used) {} n)) (fun _ ↦ []) n.start n.stop
      = importText cs used n := by
  have hplaced := placed_of_reached hover hn
  obtain ⟨hstart, hstop, hchildren⟩ := placed_iff.1 hplaced
  have hwidth := start_lt_stop_of_mem hover hn n.mem_preorder_self
  have hown : spliced cs (n.patches {}) (fun _ ↦ []) n.start n.stop = ownText cs n := by
    rw [patches_empty hplaced, spliced_nil_eq_scriptText]
    rfl
  unfold prunedEdits importText
  cases hclause : n.part? "import_clause" with
  | none => exact hown
  | some clause =>
    have hmem := mem_of_mem_filter (mem_of_find?_eq_some hclause)
    have hclauseKind : clause.kind = "import_clause" := by simpa using find?_some hclause
    obtain ⟨hclauseStart, hclausePlaced, hclauseStop⟩ := hchildren.of_mem hmem
    have hclauseWidth := start_lt_stop_of_mem hover hn (mem_preorder_of_mem_children hmem)
    have hkey : n.key ≠ clause.key := by
      intro hkey
      have hsame := (NodeKey.mk.inj hkey).2.2
      rw [hkind, hclauseKind] at hsame
      exact absurd hsame (by decide)
    dsimp only
    by_cases hall : (bindings clause).all (·.survives cs (some used)) = true
    · rw [if_pos hall, if_pos hall, hown]
    rw [if_neg hall, if_neg hall]
    by_cases hany : (bindings clause).any (·.survives cs (some used)) = true
    · rw [if_pos hany, if_pos hany, patches_replace_child hplaced hmem hclauseWidth hkey]
      exact spliced_singleton (placed_iff.1 hclausePlaced).1 hclauseWidth hclauseStart
        hclauseStop hstop.le
    · rw [if_neg hany, if_neg hany,
        patches_of_some (by rw [EditSet.replacement?_replace, if_pos rfl]),
        spliced_patch hstart hwidth (hwidth.trans_le hstop.le)]
      rfl

/-! ### The edits of a typed script -/

theorem survives_iff {used : List Text} {b : Binding} :
    b.survives cs (some used) = true ↔ b.isType = false ∧ ownText cs b.bound ∈ used := by
  rw [Binding.survives, Bool.and_eq_true, Bool.not_eq_true', isKept, contains_iff_mem]

/-- Pruning looks only at **which names** are in use. -/
theorem prunedEdits_eq_of_mem_iff {used used' : List Text} (h : ∀ t, t ∈ used ↔ t ∈ used') :
    prunedEdits cs (some used) = prunedEdits cs (some used') := by
  have hsurvives : Binding.survives cs (some used) = Binding.survives cs (some used') := by
    funext b
    rw [Bool.eq_iff_iff, survives_iff, survives_iff, h]
  funext edits n
  unfold prunedEdits
  rw [hsurvives]

/-- When a typed script is made plain, each import is **pruned by the names in use**. -/
theorem exists_plainEdits (hover : tree.Over d cs) (hcollect : collect tree path = .ok w)
    (names : MarkupNames) :
    ∃ edits, Compiled tree names edits ∧ plainEdits tree names true path
      = .ok (w.imports.foldl (prunedEdits cs (some (usedTexts tree cs names))) edits) := by
  have hcollected : Collected tree names (reached tree) w := collected_collect hcollect
  obtain ⟨edits, hcompile⟩ : ∃ edits, compileElements tree names w.edits w.elements = .ok edits :=
    exists_compileElements hover (fun e he ↦ hcollected.reached_of_elements he) hcollected.editsFor
  obtain ⟨used, hused, hmem⟩ := exists_usedNames hover names
  refine ⟨edits, compiled_compileElements hover hcollect hcompile, ?_⟩
  rw [plainEdits_eq, hcollect, ← prunedEdits_eq_of_mem_iff hmem]
  show (compileElements tree names w.edits w.elements >>= _) = _
  rw [hcompile]
  show (namesFor tree names true >>= _) = _
  rw [namesFor, hused]
  refine foldlM_eq_ok (fun edits n hn ↦ pruneImport_eq hover ?_) edits
  rw [hcollected.imports] at hn
  exact mem_preorder_of_reached (mem_of_mem_filter hn)

/-- Nothing is put into an import that stands free but **before** it. -/
theorem StandsFree.assignedAt_eq_nil (h : StandsFree tree n) {offset : Nat}
    (hstart : n.start < offset) (hstop : offset < n.stop) : assignedAt tree offset = [] := by
  have hnone : ((reached tree).filterMap (propertyInsertion tree)).filter
      (·.1 == (offset : Int)) = [] := by
    refine filter_eq_nil_iff.2 fun i hi heq ↦ ?_
    obtain ⟨m, hm, hi⟩ := mem_filterMap.1 hi
    have heq := beq_iff_eq.1 heq
    exact h.assigned m hm i hi (by omega)
  rw [assignedAt, hnone]
  rfl

/-- An import that stands free is **written** by the names in use. -/
theorem rendered_of_standsFree (hover : tree.Over d cs) (hcollect : collect tree path = .ok w)
    (hplain : plainEdits tree names true path = .ok edits') (hn : n ∈ reached tree)
    (hputOff : isPutOff n = true) (hfree : StandsFree tree n) :
    tree.rendered edits' n
      = .ok (assignedAt tree n.start ++ importText cs (usedTexts tree cs names) n) := by
  obtain ⟨edits, hcompiled, heq⟩ := exists_plainEdits hover hcollect names
  obtain rfl := Except.ok.inj (hplain.symm.trans heq)
  obtain ⟨used, edits₀, -, hall⟩ := exists_allEdits hover hplain
  have hcollected : Collected tree names (reached tree) w := collected_collect hcollect
  have hfits := hall.fits hover
  have hplaced := placed_of_reached hover hn
  obtain ⟨hstart, hstop, -⟩ := placed_iff.1 hplaced
  have hwidth := start_lt_stop_of_mem hover hn n.mem_preorder_self
  have hpatches (p) (hp : p ∈ n.patches _) : n.start ≤ p.start :=
    (bounds_of_mem_patches hplaced
      (hfits.widths.of_mem_preorder (mem_preorder_of_reached hn)) hp).1
  rw [rendered_eq_spliced hover hfits (textAt_eq_assignedAt hall.insertions hall.statements)
    (mem_preorder_of_reached hn), spliced_of_start hstart hwidth
    (hwidth.trans_le hstop.le) hpatches fun offset ↦ hfree.assignedAt_eq_nil,
    patches_congr fun m hm ↦
      hcollected.replacement?_of_standsFree hcompiled hover hn hputOff hfree hm,
    spliced_prunedEdits hover hn (kind_of_isPutOff hputOff)]

/-! ### Main results -/

theorem plain_eq_plainTree (hread : SourceTree.readStrict (dialectOf path) cs = .ok tree)
    (names : MarkupNames) :
    plain names (Text.ofChars cs) path
      = plainTree tree names (elidedExtensions.contains (extensionOf path)) path := by
  have hreadAt : readAt .transform (dialectOf path) (Text.ofChars cs) path = .ok tree := by
    simp only [readAt, Text.chars?_ofChars, hread]
  exact congrArg (· >>= fun tree ↦ plainTree tree names _ path) hreadAt

/-- The plain text of a typed script **around an import** that stands free. -/
theorem plain_eq_of_standsFree (hpath : elidedExtensions.contains (extensionOf path) = true)
    (hread : SourceTree.readStrict (dialectOf path) cs = .ok tree) (hover : tree.Over d cs)
    (hcollect : collect tree path = .ok w)
    (hplain : plainEdits tree names true path = .ok edits) (hn : n ∈ reached tree)
    (hputOff : isPutOff n = true) (hfree : StandsFree tree n) :
    plain names (Text.ofChars cs) path
      = .ok (writtenBefore tree cs edits n.start ++ importText cs (usedTexts tree cs names) n
        ++ writtenAfter tree cs edits n.stop) := by
  obtain ⟨used, edits₀, -, hall⟩ := exists_allEdits hover hplain
  rw [plain_eq_plainTree hread, hpath]
  exact plainTree_eq_of_standsOpen hover hplain (mem_preorder_of_reached hn)
    (hall.standsOpen hover hn hputOff hfree)
    (rendered_of_standsFree hover hcollect hplain hn hputOff hfree)

/-- **Imports are pruned exactly.** In a typed script an import that stands free, as each one among
the statements does, is written with the bindings that are not marked as types and whose names are
in use. A name is in use when it stands as a name in no import and in nothing that only states
types, or when markup that lies in none of these is compiled with it. -/
theorem imports_pruned_exactly (hpath : elidedExtensions.contains (extensionOf path) = true)
    (hread : SourceTree.readStrict (dialectOf path) cs = .ok tree)
    (hcollect : collect tree path = .ok w) (names : MarkupNames) :
    ∃ edits, plainEdits tree names true path = .ok edits ∧
      (∀ m, m ∈ valueNodes tree ↔ m ∈ preorderAll tree.statements ∧
        ∀ k ∈ preorderAll tree.statements, isUnused k = true → m ∉ k.preorder) ∧
      (∀ n ∈ tree.statements, isPutOff n = true → n ∈ reached tree ∧ StandsFree tree n) ∧
      ∀ n ∈ reached tree, isPutOff n = true → StandsFree tree n →
        plain names (Text.ofChars cs) path
          = .ok (writtenBefore tree cs edits n.start ++ importText cs (usedTexts tree cs names) n
            ++ writtenAfter tree cs edits n.stop) ∧
        ∀ clause ∈ n.part? "import_clause",
          bindings clause
            = (bindings clause).filter (!·.isListed) ++ (bindings clause).filter (·.isListed) ∧
          ∀ b ∈ bindings clause, b.bound.kind = "identifier" ∧
            (b.survives cs (some (usedTexts tree cs names)) = true ↔
              b.isType = false ∧ ownText cs b.bound ∈ usedTexts tree cs names) := by
  have hformed : tree.Formed (dialectOf path) cs :=
    eq_read_of_readStrict hread ▸ formed_read (dialectOf path) cs
  have hover := hformed.toOver
  obtain ⟨edits, -, hplain⟩ := exists_plainEdits hover hcollect names
  refine ⟨_, hplain, fun m ↦ mem_valueNodes_iff hover, fun n hn hputOff ↦
    ⟨Node.mem_reachedAll_of_mem hn, standsFree_of_mem_statements hover hn hputOff⟩,
    fun n hn hputOff hfree ↦
      ⟨plain_eq_of_standsFree hpath hread hover hcollect hplain hn hputOff hfree,
        fun clause hclause ↦ ?_⟩⟩
  have hkind : clause.kind = "import_clause" := by simpa using List.find?_some hclause
  have hshaped (m) (hm : m ∈ clause.preorder) : m.Shaped cs :=
    hformed.shaped m (Node.mem_preorder_trans (mem_preorder_of_reached hn)
      (Node.mem_preorder_trans (mem_preorder_of_part? hclause) hm))
  exact ⟨bindings_eq_append (hshaped clause clause.mem_preorder_self) hkind, fun b hb ↦
    ⟨kind_bound_of_mem_bindings hshaped hb, survives_iff⟩⟩

/-- A typed script with an import that loses some bindings, one that binds nothing and one that
goes. -/
def prunedScript : List Char :=
  ("import a, \x7b type T, b, c as d \x7d from 'm';\nimport 's';\nimport * as e from 'e';\n"
    ++ "d; let x: typeof b;").toList

/-- The plain text of `prunedScript`. -/
def prunedPlain : List Char := "import \x7b c as d \x7d from 'm';\nimport 's';\n\nd; let x;".toList

/-- At a script with three imports. -/
theorem imports_pruned_exactly_three :
    plain {} (Text.ofChars prunedScript) (some typedPath) = .ok (Text.ofChars prunedPlain) ∧
    ((SourceTree.read .typed prunedScript).statements.filter isPutOff).map
        (importText prunedScript (usedTexts (SourceTree.read .typed prunedScript) prunedScript {}))
      = (["import \x7b c as d \x7d from 'm';", "import 's';", ""] : List Text) ∧
    ∃ edits, plainEdits (SourceTree.read .typed prunedScript) {} true (some typedPath) = .ok edits ∧
      ∀ n ∈ (SourceTree.read .typed prunedScript).statements, isPutOff n = true →
        plain {} (Text.ofChars prunedScript) (some typedPath)
          = .ok (writtenBefore (SourceTree.read .typed prunedScript) prunedScript edits n.start
            ++ importText prunedScript
              (usedTexts (SourceTree.read .typed prunedScript) prunedScript {}) n
            ++ writtenAfter (SourceTree.read .typed prunedScript) prunedScript edits n.stop) := by
  refine ⟨?_, by decide +kernel, ?_⟩
  · rw [plain_eq_map (by decide +kernel)]
    exact eq_ok_of_succeedsWith (by decide +kernel)
  · have hread : SourceTree.readStrict (dialectOf (some typedPath)) prunedScript
        = .ok (SourceTree.read .typed prunedScript) :=
      readStrict_of_firstFault? (by decide +kernel)
    obtain ⟨w, hcollect, -⟩ : ∃ w,
        collect (SourceTree.read .typed prunedScript) (some typedPath) = .ok w ∧ true = true :=
      exists_of_succeedsWith (p := fun _ ↦ true) (by decide +kernel)
    obtain ⟨edits, hplain, -, hfree, hwritten⟩ :=
      imports_pruned_exactly (by decide) hread hcollect {}
    refine ⟨edits, hplain, fun n hn hputOff ↦ ?_⟩
    obtain ⟨hreached, hfree⟩ := hfree n hn hputOff
    exact (hwritten n hreached hputOff hfree).1

/-- A script with markup in a statement that only declares. -/
def ambientMarkup : List Char := "import React from 'react'; declare const x = <a/>;".toList

/-- Markup in what only states types does **not** keep the name that it would be compiled with. -/
theorem ambient_markup_keeps_nothing :
    (preorderAll (SourceTree.read .typedMarkup ambientMarkup).statements).any isTag = true ∧
    plain {} (Text.ofChars ambientMarkup) (some markupPath) = .ok " " := by
  refine ⟨by decide +kernel, ?_⟩
  rw [plain_eq_map (by decide +kernel)]
  exact eq_ok_of_succeedsWith (by decide +kernel)

end ScriptTree.Transform
