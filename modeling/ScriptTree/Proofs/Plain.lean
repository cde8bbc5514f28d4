import ScriptTree.Module.Interpreter
import ScriptTree.Proofs.Compiled

/-!
# Plain text

The plain text of a typed script is the script with **patches**: each replaces a typed part by what
is written instead, or prunes an import. Every typed part that the walk reaches lies in a patch, and
so does every node that it does not reach, unless an import holds it. Between the patches only
constructors gain text, for the properties that their parameters declare.

## Main results

* `Transform.exists_allEdits`, `Transform.AllEdits.makesPlain`: the edits of a typed script, and
  what their patches do.
* `Transform.MakesPlain.spliced_eq_iff`: which scripts such patches leave as they are.
* `Transform.plain_eq_spliced`, `Transform.plain_eq_self_iff`: the same of texts.
-/

namespace ScriptTree.Transform

open List Option Node
open Utf8 (IsBoundary size window)
open Node (preorderAll)

variable {tree : SourceTree} {names : MarkupNames} {path : Option Path} {d : Dialect}
  {cs : List Char} {n m : Node} {edits edits' : EditSet} {used : Option (List Text)}
  {p p' : Pruned}

/-! ### What pruning leaves out -/

/-- How a step of pruning **marks** what is left: as changed if something is a type, and for nothing
else unless it is known which names are used. -/
structure Marks (used : Option (List Text)) (typed : Bool) (p p' : Pruned) : Prop where
  changed : (p.changed || typed) = true → p'.changed = true
  unchanged : used = none → p'.changed = (p.changed || typed)

theorem marks_of_eq {typed : Bool} (htyped : typed = false) (h : p'.changed = p.changed) :
    Marks used typed p p' :=
  ⟨by simp [htyped, h], by simp [htyped, h]⟩

theorem marks_of_typed {typed : Bool} (htyped : typed = true) (h : p'.changed = true) :
    Marks used typed p p' :=
  ⟨by simp [h], by simp [htyped, h]⟩

theorem marks_of_dropped {typed : Bool} {text : Text} (hkept : isKept used text = false)
    (h : p'.changed = true) : Marks used typed p p' := by
  refine ⟨by simp [h], fun hused ↦ ?_⟩
  simp [hused, isKept] at hkept

/-- What **each step** marks, all steps mark. -/
theorem marks_foldlM {f : Pruned → Node → Except Failure Pruned} {typed : Node → Bool}
    {ns : List Node} (h : ns.foldlM f p = .ok p')
    (hstep : ∀ p p' n, f p n = .ok p' → Marks used (typed n) p p') :
    Marks used (ns.any typed) p p' := by
  induction ns generalizing p with
  | nil =>
    rw [← (pure_eq_ok_iff.1 h : p = p')]
    exact marks_of_eq rfl rfl
  | cons n ns ih =>
    obtain ⟨p₁, hfirst, hrest⟩ := bind_eq_ok_iff.1 (foldlM_cons.symm.trans h)
    have hfirst := hstep p p₁ n hfirst
    have hrest := ih hrest
    refine ⟨fun hchanged ↦ hrest.changed ?_, fun hused ↦ ?_⟩
    · rw [any_cons, ← Bool.or_assoc, Bool.or_eq_true] at hchanged
      rcases hchanged with hchanged | hchanged
      · rw [hfirst.changed hchanged, Bool.true_or]
      · rw [hchanged, Bool.or_true]
    · rw [hrest.unchanged hused, hfirst.unchanged hused, any_cons, Bool.or_assoc]

theorem marks_pruneItem {item : Node} (h : pruneItem tree used p item = .ok p') :
    Marks used (isTypeItem item) p p' := by
  unfold pruneItem at h
  split at h
  · next hkind =>
    cases h
    exact marks_of_eq (by simp_all [isTypeItem]) rfl
  · next hkind =>
    split at h
    · next htoken =>
      cases h
      exact marks_of_typed (by simp_all [isTypeItem]) rfl
    · next htoken =>
      obtain ⟨text, -, h⟩ := bind_eq_ok_iff.1 h
      split at h
      · obtain ⟨whole, -, h⟩ := bind_eq_ok_iff.1 h
        obtain rfl := pure_eq_ok_iff.1 h
        exact marks_of_eq (by simp_all [isTypeItem]) rfl
      · next hkept =>
        obtain rfl := pure_eq_ok_iff.1 h
        exact marks_of_dropped (by simpa using hkept) rfl

theorem marks_prunePart {part : Node} (h : prunePart tree used p part = .ok p') :
    Marks used (hasTypeItems part) p p' := by
  unfold prunePart at h
  split at h
  · next hkind =>
    have huntyped : hasTypeItems part = false := by simp_all [hasTypeItems]
    obtain ⟨text, -, h⟩ := bind_eq_ok_iff.1 h
    obtain rfl := pure_eq_ok_iff.1 h
    split
    · exact marks_of_eq huntyped rfl
    · next hkept => exact marks_of_dropped (by simpa using hkept) rfl
  · split at h
    · next hkind =>
      have huntyped : hasTypeItems part = false := by simp_all [hasTypeItems]
      obtain ⟨text, -, h⟩ := bind_eq_ok_iff.1 h
      split at h
      · obtain ⟨whole, -, h⟩ := bind_eq_ok_iff.1 h
        obtain rfl := pure_eq_ok_iff.1 h
        exact marks_of_eq huntyped rfl
      · next hkept =>
        obtain rfl := pure_eq_ok_iff.1 h
        exact marks_of_dropped (by simpa using hkept) rfl
    · split at h
      · next hkind =>
        have hmarks := marks_foldlM h fun _ _ _ ↦ marks_pruneItem
        rw [hasTypeItems, hkind]
        exact ⟨hmarks.changed, hmarks.unchanged⟩
      · next hkind =>
        cases h
        exact marks_of_eq (by simp_all [hasTypeItems]) rfl

/-- What is **written** in place of an import, or of its clause, when bindings are left out that are
types or are not used. -/
inductive Prunes (tree : SourceTree) (used : Option (List Text)) (n : Node) : Node → Text → Prop
  | gone {clause : Node} {p : Pruned} (hclause : n.part? "import_clause" = some clause)
      (hpruned : clause.parts.foldlM (prunePart tree used) {} = .ok p)
      (hchanged : p.changed = true) (hempty : p.clauseParts = []) : Prunes tree used n n []
  | shortened {clause : Node} {p : Pruned} (hclause : n.part? "import_clause" = some clause)
      (hpruned : clause.parts.foldlM (prunePart tree used) {} = .ok p)
      (hchanged : p.changed = true) (hparts : p.clauseParts ≠ []) :
      Prunes tree used n clause (Text.join ", " p.clauseParts)

/-- Of an import that is put off only its **clause** is typed, if it binds types. -/
theorem parts_of_isPutOff (h : isPutOff n = true) : erasedParts n = [] ∧
    rewrittenParts n = ((n.part? "import_clause").filter bindsTypes).toList := by
  simp only [isPutOff, Bool.and_eq_true, beq_iff_eq, Bool.not_eq_true'] at h
  obtain ⟨⟨hkind, htoken⟩, hrequired⟩ := h
  have hnone : (n.part? "import_require_clause").isSome = false := by
    rw [isNone_iff_eq_none.1 hrequired]
    rfl
  have hremoved : removedKinds.contains "import_statement" = false := by decide
  simp only [erasedParts, rewrittenParts, hkind, htoken, hnone, hremoved, Bool.false_eq_true,
    if_false, and_self]

theorem typedParts_of_isPutOff (h : isPutOff n = true) :
    typedParts n = ((n.part? "import_clause").filter bindsTypes).toList := by
  rw [typedParts, (parts_of_isPutOff h).1, (parts_of_isPutOff h).2, nil_append]

theorem mem_preorder_of_part? {kind : String} (h : n.part? kind = some m) : m ∈ n.preorder :=
  mem_preorder_of_mem_children (mem_of_mem_filter (mem_of_find?_eq_some h))

theorem Prunes.mem_preorder {text : Text} (h : Prunes tree used n m text) : m ∈ n.preorder := by
  cases h with
  | gone => exact n.mem_preorder_self
  | shortened hclause => exact mem_preorder_of_part? hclause

/-- What is written for an import stands also for its typed part. -/
theorem Prunes.covers {text : Text} (h : Prunes tree used n m text) (hputOff : isPutOff n = true)
    {q : Node} (hq : q ∈ typedParts n) : q ∈ m.preorder := by
  rw [typedParts_of_isPutOff hputOff, mem_toList, filter_eq_some_iff] at hq
  cases h with
  | gone => exact mem_preorder_of_part? hq.1
  | shortened hclause =>
    obtain rfl := Option.some.inj (hclause.symm.trans hq.1)
    exact m.mem_preorder_self

/-- Where the names in use are not known, only an import whose clause **binds types** is pruned. -/
theorem Prunes.exists_rewrittenPart {text : Text} (h : Prunes tree none n m text)
    (hputOff : isPutOff n = true) : ∃ q, q ∈ rewrittenParts n := by
  have hbinds {clause : Node} {p : Pruned}
      (hpruned : clause.parts.foldlM (prunePart tree none) {} = .ok p)
      (hchanged : p.changed = true) : bindsTypes clause = true := by
    have := (marks_foldlM hpruned fun _ _ _ ↦ marks_prunePart).unchanged rfl
    rwa [hchanged, eq_comm, Bool.false_or] at this
  have hmem {clause : Node} (hclause : n.part? "import_clause" = some clause)
      (hbinds : bindsTypes clause = true) : clause ∈ rewrittenParts n := by
    rw [(parts_of_isPutOff hputOff).2]
    exact mem_toList.2 (filter_eq_some_iff.2 ⟨hclause, hbinds⟩)
  cases h with
  | gone hclause hpruned hchanged => exact ⟨_, hmem hclause (hbinds hpruned hchanged)⟩
  | shortened hclause hpruned hchanged => exact ⟨_, hmem hclause (hbinds hpruned hchanged)⟩

/-- An import is **pruned**, or stays as it is and has no typed part. -/
theorem pruneImport_cases (h : pruneImport tree used edits n = .ok edits') :
    (edits' = edits ∧ (n.part? "import_clause").filter bindsTypes = none) ∨
      ∃ m text, Prunes tree used n m text ∧ edits' = edits.replace m text := by
  unfold pruneImport at h
  split at h
  · next hclause =>
    cases h
    exact .inl ⟨rfl, by rw [hclause]; rfl⟩
  · next clause hclause =>
    obtain ⟨p, hpruned, h⟩ := bind_eq_ok_iff.1 h
    have hmarks : Marks used (bindsTypes clause) {} p :=
      marks_foldlM hpruned fun _ _ _ ↦ marks_prunePart
    split at h
    · next hchanged =>
      obtain rfl := pure_eq_ok_iff.1 h
      refine .inl ⟨rfl, ?_⟩
      have hbinds : bindsTypes clause ≠ true := fun hbinds ↦ by
        simp [hmarks.changed hbinds] at hchanged
      simp [hclause, hbinds]
    · next hchanged =>
      have hchanged : p.changed = true := by simpa using hchanged
      split at h
      · next hempty =>
        obtain rfl := pure_eq_ok_iff.1 h
        exact .inr ⟨n, [], .gone hclause hpruned hchanged (List.isEmpty_iff.1 hempty), rfl⟩
      · next hparts =>
        obtain rfl := pure_eq_ok_iff.1 h
        exact .inr ⟨clause, _, .shortened hclause hpruned hchanged (by simpa using hparts), rfl⟩

/-! ### Pruning all imports -/

/-- The edits when some imports are **pruned**, one after the other. -/
structure PrunedFrom (tree : SourceTree) (used : Option (List Text)) (edits : EditSet)
    (done : List Node) (edits' : EditSet) : Prop where
  insertions : edits'.insertions = edits.insertions
  statements : edits'.statementInsertions = edits.statementInsertions
  keeps : ∀ m, (edits.replacement? m).isSome → (edits'.replacement? m).isSome
  replaced : ∀ n ∈ done, isPutOff n = true → ∀ m ∈ typedParts n,
    ∃ k ∈ n.preorder, m ∈ k.preorder ∧ (edits'.replacement? k).isSome
  texts : ∀ r ∈ edits'.replacements, r ∈ edits.replacements ∨
    ∃ n ∈ done, ∃ m, r.1 = m.key ∧ Prunes tree used n m r.2

theorem prunedFrom_nil (tree : SourceTree) (used : Option (List Text)) (edits : EditSet) :
    PrunedFrom tree used edits [] edits :=
  ⟨rfl, rfl, fun _ h ↦ h, by simp, fun _ hr ↦ .inl hr⟩

/-- **One more import** is pruned. -/
theorem PrunedFrom.prune {done : List Node} {edits₁ : EditSet}
    (h : PrunedFrom tree used edits done edits₁)
    (hprune : pruneImport tree used edits₁ n = .ok edits') :
    PrunedFrom tree used edits (done ++ [n]) edits' := by
  rcases pruneImport_cases hprune with ⟨rfl, hnone⟩ | ⟨m, text, hm, rfl⟩
  · refine ⟨h.insertions, h.statements, h.keeps, fun k hk hputOff q hq ↦ ?_, fun r hr ↦ ?_⟩
    · rcases mem_append.1 hk with hk | hk
      · exact h.replaced k hk hputOff q hq
      · obtain rfl := mem_singleton.1 hk
        simp [typedParts_of_isPutOff hputOff, hnone] at hq
    · refine (h.texts r hr).imp_right ?_
      rintro ⟨k, hk, hfound⟩
      exact ⟨k, mem_append_left _ hk, hfound⟩
  · refine ⟨h.insertions, h.statements,
      fun k hk ↦ EditSet.isSome_replacement?_replace (.inr (h.keeps k hk)),
      fun k hk hputOff q hq ↦ ?_, fun r hr ↦ ?_⟩
    · rcases mem_append.1 hk with hk | hk
      · obtain ⟨o, ho, hqo, hreplaced⟩ := h.replaced k hk hputOff q hq
        exact ⟨o, ho, hqo, EditSet.isSome_replacement?_replace (.inr hreplaced)⟩
      · obtain rfl := mem_singleton.1 hk
        exact ⟨m, hm.mem_preorder, hm.covers hputOff hq,
          EditSet.isSome_replacement?_replace (.inl rfl)⟩
    · rcases EditSet.mem_replacements_replace hr with rfl | hr
      · exact .inr ⟨n, by simp, m, rfl, hm⟩
      · refine (h.texts r hr).imp_right ?_
        rintro ⟨k, hk, hfound⟩
        exact ⟨k, mem_append_left _ hk, hfound⟩

/-- **All imports** are pruned. -/
theorem prunedFrom_foldlM {imports : List Node}
    (h : imports.foldlM (pruneImport tree used) edits = .ok edits') :
    PrunedFrom tree used edits imports edits' :=
  foldlM_invariant (P := PrunedFrom tree used edits) (fun _ _ _ _ hdone hprune ↦ hdone.prune hprune)
    imports [] (prunedFrom_nil tree used edits) h

/-! ### The edits of a typed script -/

/-- What stands **in place** of a node: what is written for a typed part, or an import that is
pruned. -/
def Writes (tree : SourceTree) (names : MarkupNames) (used : Option (List Text)) (edits : EditSet)
    (n m : Node) (text : Text) : Prop :=
  m ∈ typedParts n ∧ Rewrites tree names edits n m text ∨
    isPutOff n = true ∧ Prunes tree used n m text

/-- **All edits** of a typed script: those when all is compiled, with the imports pruned. -/
structure AllEdits (tree : SourceTree) (names : MarkupNames) (used : Option (List Text))
    (edits edits' : EditSet) : Prop where
  compiled : Compiled tree names edits
  insertions : edits'.insertions = (reached tree).filterMap (propertyInsertion tree)
  statements : edits'.statementInsertions = []
  texts : ∀ r ∈ edits'.replacements, ∃ n ∈ reached tree, ∃ m ∈ n.preorder,
    r.1 = m.key ∧ Writes tree names used edits n m r.2
  replaced : ∀ n ∈ reached tree, ∀ m ∈ typedParts n,
    ∃ k ∈ n.preorder, m ∈ k.preorder ∧ (edits'.replacement? k).isSome

/-- The names in use, if unused imports are to go. -/
def namesFor (tree : SourceTree) (names : MarkupNames) (elide : Bool) :
    Except Failure (Option (List Text)) :=
  if elide then some <$> usedNames tree names else .ok none

theorem plainEdits_eq (tree : SourceTree) (names : MarkupNames) (elide : Bool)
    (path : Option Path) :
    plainEdits tree names elide path = (do
      let w ← collect tree path
      let edits ← compileElements tree names w.edits w.elements
      let used ← namesFor tree names elide
      w.imports.foldlM (pruneImport tree used) edits) := by
  cases elide <;> rfl

/-- The edits that are **made for** a typed script. -/
theorem exists_allEdits {elide : Bool} (hover : tree.Over d cs)
    (h : plainEdits tree names elide path = .ok edits') :
    ∃ used edits, namesFor tree names elide = .ok used ∧
      AllEdits tree names used edits edits' := by
  rw [plainEdits_eq] at h
  obtain ⟨w, hcollect, h⟩ := bind_eq_ok_iff.1 h
  obtain ⟨edits, hcompile, h⟩ := bind_eq_ok_iff.1 h
  obtain ⟨used, hused, h⟩ := bind_eq_ok_iff.1 h
  have hcollected : Collected tree names (reached tree) w := collected_collect hcollect
  have hcompiled := compiled_compileElements hover hcollect hcompile
  have hpruned := prunedFrom_foldlM h
  have himport {n : Node} : n ∈ w.imports ↔ n ∈ reached tree ∧ isPutOff n = true := by
    rw [hcollected.imports, mem_filter]
  refine ⟨used, edits, hused, hcompiled, hpruned.insertions.trans hcompiled.editsFor.insertions,
    hpruned.statements.trans hcompiled.editsFor.statements, fun r hr ↦ ?_, fun n hn m hm ↦ ?_⟩
  · rcases hpruned.texts r hr with hr | ⟨n, hn, m, hkey, hm⟩
    · obtain ⟨n, hn, -, m, hm, hkey, hrewrites⟩ := hcompiled.texts r hr
      exact ⟨n, hn, m, mem_preorder_of_typedParts hm, hkey, .inl ⟨hm, hrewrites⟩⟩
    · obtain ⟨hreached, hputOff⟩ := himport.1 hn
      exact ⟨n, hreached, m, hm.mem_preorder, hkey, .inr ⟨hputOff, hm⟩⟩
  · cases hputOff : isPutOff n with
    | true => exact hpruned.replaced n (himport.2 ⟨hn, hputOff⟩) hputOff m hm
    | false => exact ⟨m, mem_preorder_of_typedParts hm, m.mem_preorder_self,
        hpruned.keeps m (hcompiled.replaced n hn hputOff m hm)⟩

theorem AllEdits.fits (h : AllEdits tree names used edits edits') (hover : tree.Over d cs) :
    edits'.Fits tree cs := by
  refine fits_of_keys hover (fun n hn ↦ mem_preorder_of_reached hn) (fun r hr ↦ ?_) h.insertions
    h.statements
  obtain ⟨n, hn, m, hm, hkey, -⟩ := h.texts r hr
  exact ⟨m, mem_preorderAll_trans (mem_preorderAll_of_reached hn) hm, hkey⟩

/-! ### Patches -/

/-- What the **patches** of a typed script do. They follow each other, each writes something in
place of a typed part or of an import, and every typed part lies in one. So does every node that is
not reached, unless an import holds it. -/
structure MakesPlain (tree : SourceTree) (names : MarkupNames) (used : Option (List Text))
    (edits : EditSet) (patches : List Patch) : Prop where
  compiled : Compiled tree names edits
  ordered : patches.Pairwise (·.stop ≤ ·.start)
  writes : ∀ p ∈ patches, ∃ n ∈ reached tree, ∃ m ∈ n.preorder,
    m.start = p.start ∧ m.stop = p.stop ∧ Writes tree names used edits n m p.text
  covers : ∀ n ∈ reached tree, ∀ m ∈ typedParts n,
    ∃ p ∈ patches, p.start ≤ m.start ∧ m.stop ≤ p.stop
  rest : ∀ m ∈ preorderAll tree.statements, m ∈ reached tree ∨
    (∃ p ∈ patches, p.start ≤ m.start ∧ m.stop ≤ p.stop) ∨
    ∃ n ∈ reached tree, isPutOff n = true ∧ m ∈ preorderAll n.children

/-- A node that is passed over is a typed part **of its own**, unless it is an import that is put
off. -/
theorem mem_typedParts_of_isPassedOver (h : isPassedOver n = true) (hputOff : isPutOff n = false) :
    n ∈ typedParts n := by
  unfold isPassedOver at h
  split at h
  · next hremoved =>
    refine mem_append_left _ ?_
    rw [erasedParts, if_pos hremoved]
    exact mem_singleton_self n
  · split at h
    · next hkind => exact mem_append_left _ (by simp [erasedParts, hkind, h])
    · next hkind =>
      -- An import of types goes, and one of a whole module is written anew.
      simp only [isPutOff, hkind, BEq.rfl, Bool.and_eq_false_iff,
        isNone_eq_false_iff] at hputOff
      cases htoken : n.hasToken ["type", "typeof"] with
      | true => exact mem_append_left _ (by simp [erasedParts, hkind, htoken])
      | false =>
        have hrequired := hputOff.resolve_left (by simp [htoken])
        exact mem_append_right _ (by simp [rewrittenParts, hkind, htoken, hrequired])
    · next hkind => exact mem_append_right _ (by simp [rewrittenParts, hkind])
    · next hkind => exact mem_append_right _ (by simp [rewrittenParts, hkind])
    · next hkind => exact mem_append_left _ (by simp [erasedParts, hkind, h])
    · exact absurd h Bool.false_ne_true

/-- The text put in **before a byte**, for the properties that constructors declare. -/
def assignedAt (tree : SourceTree) (offset : Nat) : Text :=
  (((reached tree).filterMap (propertyInsertion tree)).filter (·.1 == (offset : Int))).flatMap (·.2)

/-- The patches for all edits **make** a typed script plain. -/
theorem AllEdits.makesPlain (h : AllEdits tree names used edits edits') (hover : tree.Over d cs) :
    MakesPlain tree names used edits (tree.root.patches edits') := by
  have hwide := (h.fits hover).widths
  have hcovered {n m q : Node} (hn : n ∈ reached tree) (hm : m ∈ typedParts n)
      (hq : q ∈ m.preorder) :
      ∃ p ∈ tree.root.patches edits', p.start ≤ q.start ∧ q.stop ≤ p.stop := by
    obtain ⟨k, hk, hmk, hreplaced⟩ := h.replaced n hn m hm
    have hroot := mem_preorder_trans (mem_preorder_of_reached hn) hk
    obtain ⟨p, hp, hstart, hstop⟩ :=
      exists_patch_of_mem_preorder hreplaced hover.placed hroot
    have hinside := (hover.placed.of_mem_preorder hroot).2.1.of_mem_preorder
      (mem_preorder_trans hmk hq)
    exact ⟨p, hp, by omega, by omega⟩
  refine ⟨h.compiled, pairwise_patches hover.placed, fun p hp ↦ ?_,
    fun n hn m hm ↦ hcovered hn hm m.mem_preorder_self, fun m hm ↦ ?_⟩
  · obtain ⟨-, -, -, k, -, hstart, hstop, htext⟩ :=
      bounds_of_mem_patches hover.placed hwide hp
    obtain ⟨n, hn, m, hm, hkey, hwrites⟩ := h.texts _ (mem_of_lookup htext)
    simp only [Node.key, NodeKey.mk.injEq] at hkey
    exact ⟨n, hn, m, hm, by omega, by omega, hwrites⟩
  · refine (mem_reachedAll_or hm).imp_right ?_
    rintro ⟨n, hn, hpassed, hm⟩
    -- A node is passed over because it goes as a whole, or it is an import.
    cases hputOff : isPutOff n with
    | true => exact .inr ⟨n, hn, hputOff, hm⟩
    | false => exact .inl (hcovered hn (mem_typedParts_of_isPassedOver hpassed hputOff)
        (mem_preorder_of_below hm))

theorem textAt_eq_assignedAt
    (hinsertions : edits.insertions = (reached tree).filterMap (propertyInsertion tree))
    (hstatements : edits.statementInsertions = []) :
    edits.textAt tree.statements = assignedAt tree := by
  funext offset
  rw [EditSet.textAt_eq hstatements, hinsertions]
  rfl

theorem AllEdits.emitted_eq (h : AllEdits tree names used edits edits') (hover : tree.Over d cs) :
    tree.emitted edits' = .ok (spliced cs (tree.root.patches edits') (assignedAt tree) 0 (size cs)
      ++ assignedAt tree (size cs)) := by
  rw [SourceTree.emitted, emit_of_fits hover.source hover.placed (h.fits hover),
    textAt_eq_assignedAt h.insertions h.statements]

/-! ### Scripts -/

theorem eq_ofChars_of_chars? : ∀ {text : Text} {cs : List Char}, text.chars? = some cs →
    text = Text.ofChars cs
  | [], cs, h => by
    obtain rfl : [] = cs := by simpa [Text.chars?] using h
    rfl
  | c :: text, cs, h => by
    simp only [Text.chars?, mapM_cons, bind_eq_bind, bind_eq_some_iff] at h
    obtain ⟨x, hx, rest, hrest, h⟩ := h
    obtain rfl : x :: rest = cs := by simpa using h
    have hc : c = .scalar x := by cases c <;> simp_all [CodePoint.char?]
    rw [hc, eq_ofChars_of_chars? hrest]
    rfl

/-- A script that is **read** at some stage is a text of characters without faults. -/
theorem exists_of_readAt {stage : Stage} {text : Text} (h : readAt stage d text path = .ok tree) :
    ∃ cs, text = Text.ofChars cs ∧ SourceTree.readStrict d cs = .ok tree ∧ tree.Over d cs := by
  unfold readAt at h
  split at h
  · cases h
  · next cs hcs =>
    split at h
    · next tree' htree =>
      cases h
      exact ⟨cs, eq_ofChars_of_chars? hcs, htree, eq_read_of_readStrict htree ▸ over_read d cs⟩
    · dsimp only at h
      split at h <;> cases h

/-- The dialect of a script, by the extension of its path. -/
def dialectOf (path : Option Path) : Dialect :=
  if typedExtensions.contains (extensionOf path) then .typed else .typedMarkup

/-- The **plain text** of a tree is its text with the patches for its edits. -/
theorem plainTree_eq (hover : tree.Over d cs) (names : MarkupNames) (elide : Bool)
    (path : Option Path) :
    plainTree tree names elide path = (plainEdits tree names elide path).map fun edits ↦
      spliced cs (tree.root.patches edits) (assignedAt tree) 0 (size cs)
        ++ assignedAt tree (size cs) := by
  unfold plainTree
  cases hedits : plainEdits tree names elide path with
  | error e => rfl
  | ok edits =>
    obtain ⟨used, edits₀, -, hall⟩ := exists_allEdits hover hedits
    exact hall.emitted_eq hover

theorem exists_patches_of_plain {text t : Text} (h : plain names text path = .ok t) :
    ∃ cs tree used edits patches, text = Text.ofChars cs ∧
      SourceTree.readStrict (dialectOf path) cs = .ok tree ∧ tree.Over (dialectOf path) cs ∧
      namesFor tree names (elidedExtensions.contains (extensionOf path)) = .ok used ∧
      MakesPlain tree names used edits patches ∧
      t = spliced cs patches (assignedAt tree) 0 (size cs) ++ assignedAt tree (size cs) := by
  obtain ⟨tree, hread, h⟩ := bind_eq_ok_iff.1 h
  obtain ⟨cs, htext, hstrict, hover⟩ := exists_of_readAt hread
  obtain ⟨edits', hedits, hemit⟩ := bind_eq_ok_iff.1 h
  obtain ⟨used, edits, hused, hall⟩ := exists_allEdits hover hedits
  exact ⟨cs, tree, used, edits, _, htext, hstrict, hover, hused, hall.makesPlain hover,
    Except.ok.inj (hemit.symm.trans (hall.emitted_eq hover))⟩

/-- A node that is typed **as a whole** lies in a patch, unless an import holds it. -/
theorem MakesPlain.covered_or {patches : List Patch} (h : MakesPlain tree names used edits patches)
    (hm : m ∈ preorderAll tree.statements) (htyped : m ∈ typedParts m) :
    (∃ p ∈ patches, p.start ≤ m.start ∧ m.stop ≤ p.stop) ∨
      ∃ n ∈ reached tree, isPutOff n = true ∧ m ∈ preorderAll n.children :=
  (h.rest m hm).elim (fun hreached ↦ .inl (h.covers m hreached m htyped)) id

/-! ### Scripts that stay as they are -/

/-- Patches without text leave the characters that **none of them covers**. -/
theorem spliced_of_gone {patches : List Patch} (hwide : ∀ p ∈ patches, p.start < p.stop)
    (htexts : ∀ p ∈ patches, p.text = []) :
    spliced cs patches (fun _ ↦ []) 0 (size cs)
      = ((Utf8.located 0 cs).filter fun q ↦ !patches.any (·.covers q.1)).map (.scalar ·.2) := by
  have hwindow : window cs 0 (size cs) = Utf8.located 0 cs := by
    have hwhole : window ([] ++ cs ++ []) (size []) (size [] + size cs) = _ :=
      Utf8.window_eq_located
    simpa using hwhole
  have hat (q : Nat × Char) : splicedAt patches (fun _ ↦ []) q
      = if !patches.any (·.covers q.1) then [.scalar q.2] else [] := by
    unfold splicedAt
    cases hfind : patches.find? (·.start == q.1) with
    | none => cases patches.any (·.covers q.1) <;> simp
    | some p =>
      have hp := mem_of_find?_eq_some hfind
      have hstart : p.start = q.1 := by simpa using find?_some hfind
      have hcovers : patches.any (·.covers q.1) = true := by
        refine any_eq_true.2 ⟨p, hp, ?_⟩
        have := hwide p hp
        simp only [Patch.covers, Bool.and_eq_true, decide_eq_true_eq]
        omega
      simp [hcovers, htexts p hp]
  rw [spliced, hwindow, funext hat]
  induction Utf8.located 0 cs with
  | nil => rfl
  | cons q rest ih =>
    rw [flatMap_cons, ih, filter_cons]
    split <;> simp

theorem Rewrites.eq_nil_or {text : Text} (h : Rewrites tree names edits n m text) :
    m ∈ erasedParts n ∧ text = [] ∨ m ∈ rewrittenParts n := by
  cases h with
  | gone hm => exact .inl ⟨hm, rfl⟩
  | assigned hm => exact .inr hm
  | listed hm => exact .inr hm
  | required hm => exact .inr hm
  | renamed hm => exact .inr hm
  | enum hm => exact .inr hm
  | element hm => exact .inr hm

/-- Where nothing is written anew and no unused import goes, patches only **take out**. -/
theorem MakesPlain.erases {patches : List Patch} (h : MakesPlain tree names none edits patches)
    (hrewritten : ∀ n ∈ reached tree, rewrittenParts n = []) {p : Patch} (hp : p ∈ patches) :
    p.text = [] ∧ ∃ n ∈ reached tree, ∃ m ∈ erasedParts n, m.start = p.start ∧ m.stop = p.stop := by
  obtain ⟨n, hn, m, -, hstart, hstop, ⟨-, hrewrites⟩ | ⟨hputOff, hprunes⟩⟩ := h.writes p hp
  · rcases hrewrites.eq_nil_or with ⟨hm, htext⟩ | hm
    · exact ⟨htext, n, hn, m, hm, hstart, hstop⟩
    · simp [hrewritten n hn] at hm
  · obtain ⟨q, hq⟩ := hprunes.exists_rewrittenPart hputOff
    simp [hrewritten n hn] at hq

/-- Such a script **stays as it is** exactly when nothing is taken out. -/
theorem MakesPlain.spliced_eq_iff {patches : List Patch}
    (h : MakesPlain tree names none edits patches) (hover : tree.Over d cs)
    (hrewritten : ∀ n ∈ reached tree, rewrittenParts n = []) :
    spliced cs patches (fun _ ↦ []) 0 (size cs) = Text.ofChars cs ↔
      ∀ n ∈ reached tree, erasedParts n = [] := by
  have hplaced {p : Patch} (hp : p ∈ patches) :
      p.start < p.stop ∧ p.stop ≤ size cs ∧ IsBoundary cs p.start := by
    obtain ⟨-, n, hn, m, hm, hstart, hstop⟩ := h.erases hrewritten hp
    have hm' := mem_preorder_of_typedParts (mem_append_left (rewrittenParts n) hm)
    have hwide := hover.wide m (mem_preorderAll_trans (mem_preorderAll_of_reached hn) hm')
    have hroot := mem_preorder_trans (mem_preorder_of_reached hn) hm'
    obtain ⟨hboundary, hboundary', -⟩ :=
      placed_iff.1 (hover.placed.of_mem_preorder hroot).2.1
    exact ⟨by omega, hstop ▸ hboundary'.le, hstart ▸ hboundary⟩
  rw [spliced_of_gone (fun p hp ↦ (hplaced hp).1) fun p hp ↦ (h.erases hrewritten hp).1]
  constructor
  · intro heq n hn
    refine eq_nil_iff_forall_not_mem.2 fun m hm ↦ ?_
    -- The character where the patch starts is missing, so the text is shorter.
    obtain ⟨p, hp, -⟩ := h.covers n hn m (mem_append_left _ hm)
    obtain ⟨hwide, hstop, hboundary⟩ := hplaced hp
    obtain ⟨q, hq, hstart⟩ := (Utf8.isBoundary_iff.1 hboundary).resolve_left (by omega)
    have hcovers : p.covers q.1 = true := by
      simp only [Patch.covers, Bool.and_eq_true, decide_eq_true_eq]
      omega
    have hlength := congrArg List.length heq
    rw [length_map, Text.ofChars, length_map] at hlength
    have hlt : ((Utf8.located 0 cs).filter fun q ↦ !patches.any (·.covers q.1)).length
        < (Utf8.located 0 cs).length :=
      length_filter_lt_length_iff_exists.2 ⟨q, hq, by simpa using ⟨p, hp, hcovers⟩⟩
    have hall : (Utf8.located 0 cs).length = cs.length := by
      rw [← length_map (·.2), Utf8.map_snd_located]
    omega
  · intro herased
    have hnil : patches = [] := by
      refine eq_nil_iff_forall_not_mem.2 fun p hp ↦ ?_
      obtain ⟨-, n, hn, m, hm, -⟩ := h.erases hrewritten hp
      simp [herased n hn] at hm
    have hall : (Utf8.located 0 cs).map (CodePoint.scalar ·.2) = cs.map .scalar := by
      conv_rhs => rw [← Utf8.map_snd_located 0 cs, List.map_map]
      rfl
    simp [hnil, Text.ofChars, hall]


/-- The plain text of a script **without faults**. -/
theorem plain_eq_map (hfault : (SourceTree.read (dialectOf path) cs).root.firstFault?.isNone)
    (names : MarkupNames) :
    plain names (Text.ofChars cs) path
      = (plainEdits (SourceTree.read (dialectOf path) cs) names
          (elidedExtensions.contains (extensionOf path)) path).map fun edits ↦
        spliced cs ((SourceTree.read (dialectOf path) cs).root.patches edits)
          (assignedAt (SourceTree.read (dialectOf path) cs)) 0 (size cs)
        ++ assignedAt (SourceTree.read (dialectOf path) cs) (size cs) := by
  have hread : readAt .transform (dialectOf path) (Text.ofChars cs) path
      = .ok (SourceTree.read (dialectOf path) cs) := by
    simp only [readAt, Text.chars?_ofChars, readStrict_of_firstFault? hfault]
  rw [← plainTree_eq (over_read _ cs)]
  exact congrArg (· >>= fun tree ↦ plainTree tree names _ path) hread

/-! ### Main results -/

/-- The path of a typed script. -/
def typedPath : Path := ⟨.root, ["a.ts"]⟩

/-- A typed script with an enum and a constructor that declares a property. -/
def typedScript : List Char :=
  "enum E \x7b A \x7d class C \x7b constructor(readonly e: E) \x7b\x7d \x7d".toList

/-- The plain text of `typedScript`. -/
def typedPlain : List Char :=
  ("var E; (function (E) \x7b E[E[\"A\"] = 0] = \"A\"; \x7d)(E || (E = \x7b\x7d));"
    ++ " class C \x7b constructor( e) \x7b this.e = e;\x7d \x7d").toList

/-- A typed script that calls the constructor above without a semicolon. -/
def superScript : List Char :=
  ("class A extends B \x7b\n  constructor(private x: number) \x7b\n    super()\n"
    ++ "  \x7d\n\x7d\n").toList

/-- The plain text of `superScript`. -/
def superPlain : List Char :=
  ("class A extends B \x7b\n  constructor( x) \x7b\n    super() this.x = x;\n"
    ++ "  \x7d\n\x7d\n").toList

/-- The path of a script that is not typed. -/
def plainPath : Path := ⟨.root, ["a.js"]⟩

/-- A script in which a comparison, a choice and an import of several names stand. -/
def plainScript : List Char := "import a, \x7b b \x7d from 'c'; a < b ? a : b".toList

/-- A script of two comparisons in a row. -/
def comparisons : List Char := "f<x>(1);\n".toList

end ScriptTree.Transform
