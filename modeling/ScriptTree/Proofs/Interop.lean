import ScriptTree.Proofs.InteropEdits

/-!
# Imports from packages of the dynamic format

A package of the dynamic format exports **one value**, and a name that is imported from it is a
property of that value. An import of names is therefore written as an import of the package under
one name, and a declaration after the statement takes the other names out of it. It is told here
what stands in the linked text for such an import, and what the import binds then.

The name for the package is that of the first binding that is written as one for the package, or a
new one. A further binding for the package is taken out of it like a property, and so does not stand
for the package any more; this is the only way in which what a name stands for can change.

## Main results

* `exists_emitted_eq`: what is written around an import.
* `interop_binds_iff`: what an import from a package binds when it is linked.
-/

namespace ScriptTree

open List Option Node
open Utf8 (IsBoundary size)
open Node (preorderAll)
open Transform (ownText scriptText)

variable {tree : SourceTree} {cs : List Char} {d : Dialect} {targets : SpecifierTargets}
  {fs : FileSystem} {importer : Path} {edits : EditSet} {n m s r clause : Node}
  {earlier later : List Node} {own : List NamedImport} {P : Node → Prop}

/-! ### What is written around an import -/

/-- No statement ends **inside** another, and only one ends where it ends. -/
theorem stop_of_split (hover : tree.Over d cs) (hsplit : tree.statements = earlier ++ s :: later)
    {i : Nat} (hr : tree.statements[i]? = some r) :
    ¬ (s.start < r.stop ∧ r.stop < s.stop) ∧ (r.stop = s.stop ↔ i = earlier.length) := by
  have hwidth {k : Node} (hk : k ∈ tree.statements) : k.start < k.stop :=
    Transform.start_lt_stop_of_mem_statements hover (mem_preorderAll_of_mem hk)
  have hs := hwidth (by rw [hsplit]; simp : s ∈ tree.statements)
  have hrwidth := hwidth (mem_of_getElem? hr)
  obtain ⟨hbefore, hafter⟩ := apart_of_split hover hsplit
  rw [hsplit] at hr
  rcases Nat.lt_trichotomy i earlier.length with hi | rfl | hi
  · rw [getElem?_append_left hi] at hr
    have := hbefore r (mem_of_getElem? hr)
    omega
  · obtain rfl : s = r := by simpa using hr
    omega
  · rw [getElem?_append_right hi.le] at hr
    obtain ⟨j, hj⟩ := Nat.exists_eq_add_of_lt hi
    have hr : later[j]? = some r := by simpa [hj, Nat.add_assoc] using hr
    have := hafter r (mem_of_getElem? hr)
    omega

theorem EditSet.Touches.exists_statement (h : edits.Touches tree P) {x : Int × Text}
    (hx : x ∈ EditSet.byStatement edits.statementInsertions) :
    ∃ (i : Nat) (r : Node), x.1 = i ∧ tree.statements[i]? = some r ∧
      EditSet.statement? tree.statements x.1 = some r := by
  obtain ⟨i, hi, hlength⟩ := h.numbers x ((mergeSort_perm _ _).mem_iff.1 hx)
  refine ⟨i, tree.statements[i], hi, getElem?_eq_getElem hlength, ?_⟩
  rw [hi, statement?_natCast, getElem?_eq_getElem hlength]

/-- Nothing is put **into** a statement. -/
theorem textAt_inside (h : edits.Touches tree P) (hover : tree.Over d cs)
    (hsplit : tree.statements = earlier ++ s :: later) {offset : Nat} (hstart : s.start < offset)
    (hstop : offset < s.stop) : edits.textAt tree.statements offset = [] := by
  have hnone : (EditSet.byStatement edits.statementInsertions).filter (fun x ↦
      (EditSet.statement? tree.statements x.1).any (·.stop == offset)) = [] := by
    refine filter_eq_nil_iff.2 fun x hx hends ↦ ?_
    obtain ⟨i, r, -, hr, hstatement⟩ := h.exists_statement hx
    have hoffset : r.stop = offset := by simpa [hstatement] using hends
    exact (stop_of_split hover hsplit hr).1 (by omega)
  rw [EditSet.textAt, h.insertions, hnone]
  rfl

/-- **After** a statement that is put in which was recorded for its number. -/
theorem textAt_stop (h : edits.Touches tree P) (hover : tree.Over d cs)
    (hsplit : tree.statements = earlier ++ s :: later) :
    edits.textAt tree.statements s.stop = (edits.after earlier.length).flatten := by
  have hfilter : (EditSet.byStatement edits.statementInsertions).filter (fun x ↦
        (EditSet.statement? tree.statements x.1).any (·.stop == s.stop))
      = (EditSet.byStatement edits.statementInsertions).filter
        (·.1 = (earlier.length : Int)) := by
    refine filter_congr fun x hx ↦ ?_
    obtain ⟨i, r, hi, hr, hstatement⟩ := h.exists_statement hx
    have hiff := (stop_of_split hover hsplit hr).2
    rw [Bool.eq_iff_iff]
    simp only [hstatement, any_some, beq_iff_eq, decide_eq_true_eq]
    rw [hiff, hi, Int.natCast_inj]
  rw [EditSet.textAt, h.insertions, hfilter, EditSet.filter_byStatement]
  rfl

/-- What is written from a byte on **starts** with what is put in there. -/
theorem exists_spliced_eq {patches : List Patch} {inserted : Nat → Text} {a : Nat}
    (ha : IsBoundary cs a) (hpatches : ∀ p ∈ patches, p.stop ≤ a ∨ a ≤ p.start) :
    ∃ rest, spliced cs patches inserted a (size cs) ++ inserted (size cs) = inserted a ++ rest := by
  rcases Nat.lt_or_eq_of_le ha.le with hlt | rfl
  · obtain ⟨c, rest, hwindow, -⟩ := Utf8.window_eq_cons ha hlt hlt
    have hencloses : patches.any (·.encloses a) = false := by
      refine any_eq_false.2 fun p hp ↦ ?_
      have := hpatches p hp
      simp only [Patch.encloses, Bool.and_eq_true, decide_eq_true_eq]
      omega
    rw [spliced, hwindow, flatMap_cons, splicedAt, hencloses]
    simp only [Bool.false_eq_true, append_assoc]
    exact ⟨_, rfl⟩
  · exact ⟨[], by rw [spliced_self (Nat.le_refl _), nil_append, append_nil]⟩

/-- What is replaced aside from an import lies **apart** from it, or is a child of it. -/
theorem EditSet.Touches.exists_key (h : edits.Touches tree (LiesAside n own))
    (hown : ∀ item ∈ own, item.clause ∈ n.children) (hm : (edits.replacement? m).isSome) :
    ∃ q ∈ preorderAll tree.root.children, m.key = q.key ∧
      (q.stop ≤ n.start ∨ n.stop ≤ q.start ∨ q ∈ n.children) := by
  obtain ⟨q, hq, hkey, hlies⟩ := h.exists_node hm
  refine ⟨q, hq, hkey, hlies.imp_right (Or.imp_right ?_)⟩
  rintro ⟨item, hitem, rfl⟩
  exact hown item hitem

/-- An import **stands open** if what is replaced lies aside from it. -/
theorem EditSet.Touches.standsOpen (h : edits.Touches tree (LiesAside n own))
    (hover : tree.Over d cs) (hn : n ∈ preorderAll tree.statements)
    (hforked : n.kind ∈ Node.forkedKinds)
    (hown : ∀ item ∈ own, item.clause ∈ n.children) : StandsOpen edits tree.root n := by
  have hwidth := Transform.start_lt_stop_of_mem_statements hover hn
  intro k hk hbelow
  by_contra hnone
  obtain ⟨hstart, -, hstop⟩ := (hover.placed.of_mem_preorder hk).2.1.of_mem_preorder
    (mem_preorder_of_below hbelow)
  obtain ⟨q, -, hkey, hlies⟩ := h.exists_key hown (isSome_iff_ne_none.2 hnone)
  simp only [Node.key, NodeKey.mk.injEq] at hkey
  rcases hlies with hlies | hlies | hq
  · omega
  · omega
  · -- A child of the import would fill it.
    have hnarrow := Transform.narrow_of_forked hover (SourceTree.mem_preorder_of_statements hn)
      hforked (mem_preorderAll_of_mem hq)
    omega

/-- What is written **around an import** if what is replaced lies aside from it: in it, what is
replaced in its children, and after its statement, what was recorded for that. -/
theorem exists_emitted_eq (h : edits.Touches tree (LiesAside n own)) (hover : tree.Over d cs)
    (hsplit : tree.statements = earlier ++ s :: later) (hn : n ∈ s.preorder)
    (hforked : n.kind ∈ Node.forkedKinds) (hown : ∀ item ∈ own, item.clause ∈ n.children) :
    ∃ pre middle post, tree.emitted edits
        = .ok (pre ++ spliced cs (n.patches edits) (fun _ ↦ []) n.start n.stop ++ middle
          ++ (edits.after earlier.length).flatten ++ post) ∧
      (n = s → middle = []) := by
  have hs : s ∈ tree.statements := by rw [hsplit]; simp
  have hbelow : n ∈ preorderAll tree.statements := mem_preorderAll.2 ⟨s, hs, hn⟩
  have hroot := SourceTree.mem_preorder_of_statements hbelow
  have hfits := h.fits hover
  have hwidth := Transform.start_lt_stop_of_mem_statements hover hbelow
  have hplaced := (hover.placed.of_mem_preorder hroot).2.1
  have hstart := (placed_iff.1 hplaced).1
  have hchildren := (placed_iff.1 hover.placed).2.2
  have hsplaced := ((Transform.placedIn_statements hover).of_mem hs).2.1
  have hsstop := (placed_iff.1 hsplaced).2.1
  obtain ⟨hin, -, hout⟩ := hsplaced.of_mem_preorder hn
  have hpatches (p) (hp : p ∈ tree.root.patches edits) : p.stop ≤ s.stop ∨ s.stop ≤ p.start := by
    obtain ⟨-, -, -, k, -, hpstart, hpstop, htext⟩ :=
      bounds_of_mem_patches hover.placed hfits.widths hp
    obtain ⟨q, hq, hkey, -⟩ := h.exists_key hown (by rw [htext]; rfl)
    simp only [Node.key, NodeKey.mk.injEq] at hkey
    obtain ⟨c, hc, hqc⟩ := mem_preorderAll.1 hq
    obtain ⟨hcstart, -, hcstop⟩ := (hchildren.of_mem hc).2.1.of_mem_preorder hqc
    rcases Transform.apart_of_mem hchildren hc ((Transform.statements_sublist tree).subset hs) with
      rfl | hlies <;> omega
  have hinside (p) (hp : p ∈ n.patches edits) : n.start ≤ p.start :=
    (bounds_of_mem_patches hplaced (hfits.widths.of_mem_preorder hroot) hp).1
  obtain ⟨post, hpost⟩ : ∃ post, spliced cs (tree.root.patches edits)
        (edits.textAt tree.statements) s.stop (size cs) ++ edits.textAt tree.statements (size cs)
      = edits.textAt tree.statements s.stop ++ post := exists_spliced_eq hsstop hpatches
  rw [textAt_stop h hover hsplit] at hpost
  refine ⟨spliced cs (tree.root.patches edits) (edits.textAt tree.statements) 0 n.start
      ++ edits.textAt tree.statements n.start,
    spliced cs (tree.root.patches edits) (edits.textAt tree.statements) n.stop s.stop, post, ?_,
    fun heq ↦ by rw [heq, spliced_self (Nat.le_refl _)]⟩
  rw [SourceTree.emitted, emit_of_fits hover.source hover.placed hfits,
    spliced_append (Nat.zero_le n.start) (Nat.le_trans hwidth.le
      (hout.trans hsstop.le)),
    spliced_append hwidth.le (hout.trans hsstop.le),
    spliced_append hout hsstop.le,
    spliced_of_standsOpen hover.placed hfits.widths hroot (h.standsOpen hover hbelow hforked hown),
    Transform.spliced_of_start hstart hwidth
      (hwidth.trans_le (hout.trans hsstop.le)) hinside fun offset hlt hgt ↦
        textAt_inside h hover hsplit (by omega) (by omega)]
  simp only [append_assoc] at hpost ⊢
  rw [hpost]

/-! ### What is written for an import -/

/-- In an import from which all else lies aside, only the **clauses** of what it takes are
replaced. -/
theorem EditSet.Touches.exists_item (h : edits.Touches tree (LiesAside n own))
    (hover : tree.Over d cs) (hn : n ∈ preorderAll tree.statements) (hm : m ∈ n.preorder)
    (hreplaced : (edits.replacement? m).isSome) : ∃ item ∈ own, m.key = item.clause.key := by
  have hroot := SourceTree.mem_preorder_of_statements hn
  have hwidth := Transform.start_lt_stop_of_mem_statements hover (mem_preorderAll_trans hn hm)
  obtain ⟨hstart, -, hstop⟩ := (hover.placed.of_mem_preorder hroot).2.1.of_mem_preorder hm
  obtain ⟨q, -, hkey, hlies⟩ := h.exists_node hreplaced
  have hends := hkey
  simp only [Node.key, NodeKey.mk.injEq] at hends
  rcases hlies with hlies | hlies | ⟨item, hitem, rfl⟩
  · omega
  · omega
  · exact ⟨item, hitem, hkey⟩

/-- An import with the name for the whole **in place of its clause**. -/
def shimText (cs : List Char) (n clause : Node) (whole : Text) : Text :=
  scriptText cs n.start clause.start ++ whole ++ scriptText cs clause.stop n.stop

/-- An import that takes nothing is written **as it is**. -/
theorem spliced_of_aside_nil (h : edits.Touches tree (LiesAside n [])) (hover : tree.Over d cs)
    (hn : n ∈ preorderAll tree.statements) :
    spliced cs (n.patches edits) (fun _ ↦ []) n.start n.stop = ownText cs n := by
  have hplaced := (hover.placed.of_mem_preorder (SourceTree.mem_preorder_of_statements hn)).2.1
  have hpatches : n.patches edits = n.patches {} := patches_congr fun m hm ↦ by
    by_contra hne
    obtain ⟨item, hitem, -⟩ := h.exists_item hover hn hm (isSome_iff_ne_none.2 hne)
    simp at hitem
  rw [hpatches, Transform.patches_empty hplaced, Transform.spliced_nil_eq_scriptText]
  rfl

/-- An import is written with the **name for the whole**. -/
theorem spliced_of_aside_singleton {item : NamedImport}
    (h : edits.Touches tree (LiesAside n [item]))
    (hover : tree.Over d cs) (hn : n ∈ preorderAll tree.statements)
    (hforked : n.kind ∈ Node.forkedKinds) (hclause : item.clause ∈ n.children) {whole : Text}
    (hwhole : edits.replacement? item.clause = some whole) :
    spliced cs (n.patches edits) (fun _ ↦ []) n.start n.stop
      = shimText cs n item.clause whole := by
  have hroot := SourceTree.mem_preorder_of_statements hn
  have hplaced := (hover.placed.of_mem_preorder hroot).2.1
  obtain ⟨hstart, hstop, hchildren⟩ := placed_iff.1 hplaced
  obtain ⟨hin, hclausePlaced, hout⟩ := hchildren.of_mem hclause
  have hwidth := Transform.start_lt_stop_of_mem_statements hover
    (mem_preorderAll_trans hn (mem_preorder_of_mem_children hclause))
  have hnarrow := Transform.narrow_of_forked hover hroot hforked
    (mem_preorderAll_of_mem hclause)
  have hkey : n.key ≠ item.clause.key := by
    intro hkey
    simp only [Node.key, NodeKey.mk.injEq] at hkey
    omega
  have hpatches : n.patches edits = n.patches (({} : EditSet).replace item.clause whole) := by
    refine patches_congr fun m hm ↦ ?_
    rw [EditSet.replacement?_replace]
    split
    · next heq =>
      rw [← hwhole, EditSet.replacement?, EditSet.replacement?, heq]
    · next hne =>
      show edits.replacement? m = none
      by_contra hsome
      obtain ⟨k, hk, hkey⟩ := h.exists_item hover hn hm (isSome_iff_ne_none.2 hsome)
      rw [mem_singleton.1 hk] at hkey
      exact hne hkey
  rw [hpatches, Transform.patches_replace_child hplaced hclause hwidth hkey,
    Transform.spliced_singleton (placed_iff.1 hclausePlaced).1 hwidth hin hout hstop.le]
  rfl

/-! ### The name for the whole -/

/-- A node of a script has a **text**. -/
theorem ownText_ne_nil (hover : tree.Over d cs) (hm : m ∈ preorderAll tree.root.children) :
    ownText cs m ≠ [] := by
  have hwidth := hover.wide m hm
  obtain ⟨hstart, hstop, -⟩ := placed_iff.1
    (hover.placed.of_mem_preorder (mem_preorder_of_below hm)).2.1
  obtain ⟨c, rest, hwindow, -⟩ :=
    Utf8.window_eq_cons hstart hwidth (hwidth.trans_le hstop.le)
  simp [Transform.ownText, scriptText, between, hwindow, Text.ofChars]

/-- The name for the whole is that of the **binding** for it, or else a new one. -/
theorem namesTheWhole_of_wholeName (hover : tree.Over d cs) (hclause : clause ∈ tree.root.preorder)
    {index : Nat} {specifier whole : Text}
    (h : (takenBy cs n clause index specifier).wholeName = .ok whole) :
    NamesTheWhole cs (bindings clause) whole ∧
      (wholeOf cs (bindings clause) = none → interopBinding specifier index = .ok whole) := by
  rw [NamedImport.wholeName] at h
  cases hfound : wholeOf cs (bindings clause) with
  | none =>
    simp only [takenBy, hfound] at h
    exact ⟨by simp [NamesTheWhole, hfound], fun _ ↦ h⟩
  | some b =>
    have hnonempty : (b.localName cs).isEmpty = false := by
      obtain ⟨hnode, hbound⟩ := mem_preorder_of_mem_bindings (mem_of_find?_eq_some hfound)
      have hbelow := mem_preorderAll_trans hnode hbound
      exact isEmpty_eq_false_iff.2
        (ownText_ne_nil hover (mem_preorderAll_of_below hclause hbelow))
    simp only [takenBy, hfound, map_some, hnonempty, Bool.false_eq_true, if_false,
      Except.ok.injEq] at h
    refine ⟨?_, by simp⟩
    rintro c hc
    obtain rfl : b = c := Option.some.inj (hfound.symm.trans hc)
    exact h.symm

/-! ### Imports from packages -/

/-- What linking **finds** at an import from a package. -/
theorem linkFound_of_package (hformed : tree.Formed d cs) (hn : n ∈ tree.root.preorder)
    (hkind : n.kind = "import_statement") {spec : SpecifierNode} {mechanism : Mechanism}
    {next : Visit} (hsite : linkSite tree n = .ok (some (spec, mechanism), next))
    (hinternal : isInternal spec.value = false) (hbuiltin : isBuiltin spec.value = false)
    (hclause : n.part? "import_clause" = some clause) (targets : SpecifierTargets) (index : Nat) :
    linkFound tree targets index n
      = .ok (some ⟨(spec, mechanism), none,
          if takesLeft cs clause then some (takenBy cs n clause index spec.value) else none⟩,
        .skip) := by
  obtain rfl : next = .skip := by
    unfold linkSite at hsite
    split at hsite
    · split at hsite
      · simp at hsite
      · simp only [bind_eq_ok_iff, pure_eq_ok_iff, Prod.mk.injEq] at hsite
        obtain ⟨_, -, -, rfl⟩ := hsite
        rfl
    · next heq => simp [hkind] at heq
    · next heq => simp [hkind] at heq
    · simp at hsite
  rw [linkFound, hsite]
  simp only [bind, Except.bind, Site.recorded, hinternal, Bool.false_eq_true, takenAt,
    hkind, namedImport_eq hformed hn hclause hinternal hbuiltin]
  rfl

/-- How edits have an import **written** in a text: as some text, and with declarations for it among
what is put after its statement. If the import is the statement, nothing else is put there. -/
structure EditSet.Writes (edits : EditSet) (text : Text) (s n : Node) (index : Nat)
    (written : Text) (declared : List Text) : Prop where
  written : ∃ pre middle post,
    text = pre ++ written ++ middle ++ (edits.after index).flatten ++ post ∧ (n = s → middle = [])
  declared : ∃ first last, edits.after index = first ++ declared ++ last ∧
    (n = s → first = [] ∧ last = [])

/-- **Imports from packages of the dynamic format.** In a linked text, an import of names from such
a package is written with one name for the package in place of its clause, and a declaration after
its statement takes the other names out of that. Together these bind the names of the clause, and
one more if no binding of the clause gives the name for the package. Each name is bound once, if it
is so in the clause and the additional name is none of these. The names stand for the same as in the
clause exactly when none of those that are taken out of the package stands for the package itself.
An import whose clause cannot be divided, or which takes nothing but the package, is kept. -/
theorem interop_binds_iff (htree : SourceTree.read .plain cs = tree) {text : Text}
    (hlink : link fs importer tree targets = .ok text) {i : Nat}
    (hs : tree.statements[i]? = some s) (hn : n ∈ s.preorder) (hkind : n.kind = "import_statement")
    (halone : StandsAlone tree n) {spec : SpecifierNode} {mechanism : Mechanism} {next : Visit}
    (hsite : linkSite tree n = .ok (some (spec, mechanism), next))
    (hinternal : isInternal spec.value = false) (hbuiltin : isBuiltin spec.value = false)
    (hformat : externalFormat fs importer spec.value = .ok .dynamic)
    (hclause : n.part? "import_clause" = some clause) :
    ∃ edits, linkEdits fs importer tree targets = .ok edits ∧
      (takesLeft cs clause = false → edits.Writes text s n i (ownText cs n) []) ∧
      (takesLeft cs clause = true → ∃ whole,
        let item := takenBy cs n clause i spec.value
        let made := shimBindings whole item.bindings
        let kept := addedBinding cs (bindings clause) whole ++ boundBy cs (bindings clause)
        edits.Writes text s n i (shimText cs n clause whole)
          [interopDeclaration item (ownText cs n) whole] ∧
        (wholeOf cs (bindings clause) = none → interopBinding spec.value i = .ok whole) ∧
        (made.map (·.1)).Perm (kept.map (·.1)) ∧
        ((made.map (·.1)).Nodup ↔ ((bindings clause).map (·.localName cs)).Nodup ∧
          (wholeOf cs (bindings clause) = none →
            whole ∉ (bindings clause).map (·.localName cs))) ∧
        (made.Perm kept ↔ ∀ b ∈ leftOf cs (bindings clause), b.taken cs ≠ .whole)) := by
  have hformed : tree.Formed .plain cs := htree ▸ formed_read .plain cs
  have hover := hformed.toOver
  obtain ⟨earlier, later, hsplit, rfl⟩ : ∃ earlier later,
      tree.statements = earlier ++ s :: later ∧ earlier.length = i := by
    obtain ⟨hi, rfl⟩ := List.getElem?_eq_some_iff.1 hs
    exact ⟨tree.statements.take i, tree.statements.drop (i + 1), by simp, by simp; omega⟩
  have hbelow : n ∈ preorderAll tree.statements :=
    Node.mem_preorderAll.2 ⟨s, List.mem_of_getElem? hs, hn⟩
  have hroot := SourceTree.mem_preorder_of_statements hbelow
  have hchild : clause ∈ n.children :=
    List.mem_of_mem_filter (List.mem_of_find?_eq_some hclause)
  have hclauseRoot := Node.mem_preorder_trans hroot (Node.mem_preorder_of_mem_children hchild)
  have hforked : n.kind ∈ Node.forkedKinds := by rw [hkind]; decide
  rw [link, bind_eq_ok_iff] at hlink
  obtain ⟨edits, hedits, hemitted⟩ := hlink
  have hfound := linkFound_of_package hformed hroot hkind hsite hinternal hbuiltin hclause targets
    earlier.length
  have hitem (item) (hitem : item ∈ if takesLeft cs clause then
      some (takenBy cs n clause earlier.length spec.value) else none) :
      item = takenBy cs n clause earlier.length spec.value := by
    split at hitem
    · exact (Option.some.inj hitem).symm
    · simp at hitem
  have hshims := shimsAt_of_linkEdits hover hsplit hn halone hedits hfound rfl
    (fun item h ↦ by rw [hitem item h, takenBy, loadsDynamic, hformat])
    (fun item h ↦ by rw [hitem item h]; exact ⟨hchild, rfl⟩)
  obtain ⟨first, declared, last, hafter, halonely, hnone, hone⟩ := hshims.exists_after
  obtain ⟨pre, middle, post, htext, hmiddle⟩ := exists_emitted_eq hshims.toTouches hover hsplit hn
    hforked fun item h ↦ by rw [hitem item (Option.mem_toList.1 h)]; exact hchild
  have htext := Except.ok.inj (hemitted.symm.trans htext)
  refine ⟨edits, hedits, fun htakes ↦ ?_, fun htakes ↦ ?_⟩
  · rw [htakes] at hshims hnone
    refine ⟨⟨pre, middle, post, ?_, hmiddle⟩, first, last, ?_, halonely⟩
    · rw [htext, spliced_of_aside_nil hshims.toTouches hover hbelow]
    · rw [hafter, hnone rfl]
  · rw [htakes] at hshims hone
    obtain ⟨whole, own, hwhole, hown, hreplaced, rfl⟩ := hone _ rfl
    obtain rfl : ownText cs n = own :=
      Except.ok.inj ((Transform.nodeText_eq_ownText hover hroot).symm.trans hown)
    obtain ⟨hnames, hnew⟩ := namesTheWhole_of_wholeName hover hclauseRoot hwhole
    refine ⟨whole, ⟨⟨pre, middle, post, ?_, hmiddle⟩, first, last, hafter, halonely⟩, hnew,
      perm_names_shimBindings hnames, nodup_names_shimBindings_iff hnames,
      shimBindings_perm_iff hnames⟩
    rw [htext]
    exact congrArg (pre ++ · ++ middle ++ (edits.after earlier.length).flatten ++ post)
      (spliced_of_aside_singleton hshims.toTouches hover hbelow hforked hchild hreplaced)

/-- A package of the dynamic format. -/
def dynamicPackage : FileSystem where
  entries := [
    (["node_modules"], .directory),
    (["node_modules", "p"], .directory),
    (["node_modules", "p", "index.js"], .file [] false)]
  cwd := []

/-- The text of a script that is linked beside the package. -/
def besidePackage (cs : List Char) : Except Failure Text :=
  link dynamicPackage ⟨.root, []⟩ (SourceTree.read .plain cs) []

/-- A script that imports a package as a whole after a property of it. -/
def wholeLast : List Char := "f();\nimport \x7b x as y, 'default' as d \x7d from 'p'; g()".toList

/-- At a script whose import gives the name for the package **after** another name. -/
theorem interop_binds_iff_wholeLast :
    besidePackage wholeLast = .ok "f();\nimport d from 'p'; const \x7b x: y \x7d = d; g()" ∧
    ∃ n ∈ (SourceTree.read .plain wholeLast).statements[1]?,
      ∃ clause ∈ n.part? "import_clause", ∃ (edits : EditSet) (whole : Text),
        edits.Writes "f();\nimport d from 'p'; const \x7b x: y \x7d = d; g()" n n 1
          (shimText wholeLast n clause whole)
          [interopDeclaration (takenBy wholeLast n clause 1 "p") (ownText wholeLast n) whole] ∧
        (shimBindings whole (takenBy wholeLast n clause 1 "p").bindings).Perm
          [(("y" : Text), Taken.property "x"), (("d" : Text), Taken.whole)] := by
  have hlink : besidePackage wholeLast
      = .ok "f();\nimport d from 'p'; const \x7b x: y \x7d = d; g()" := by
    rw [besidePackage, link_eq_map (over_read .plain wholeLast)]
    exact eq_ok_of_succeedsWith (by decide +kernel)
  obtain ⟨hroot, n, hn, hkind, hsite, clause, hclause, htakes, hwhole, hbound, hleft⟩ :
      (SourceTree.read .plain wholeLast).root.kind = "program" ∧
      ∃ n ∈ (SourceTree.read .plain wholeLast).statements[1]?, n.kind = "import_statement" ∧
        succeedsWith (fun x ↦ x.1.any fun site ↦ site.1.value = ("p" : Text))
          (linkSite (SourceTree.read .plain wholeLast) n) = true ∧
        ∃ clause ∈ n.part? "import_clause", takesLeft wholeLast clause = true ∧
          (wholeOf wholeLast (bindings clause)).isSome ∧
          boundBy wholeLast (bindings clause)
            = [(("y" : Text), Taken.property "x"), (("d" : Text), Taken.whole)] ∧
          ∀ b ∈ leftOf wholeLast (bindings clause), b.taken wholeLast ≠ .whole := by
    decide +kernel
  obtain ⟨⟨found, next⟩, hsite, hvalue⟩ := exists_of_succeedsWith hsite
  obtain ⟨⟨spec, mechanism⟩, rfl, hvalue⟩ := (Option.any_eq_true _ _).1 hvalue
  obtain ⟨value, form, node, start, stop⟩ := spec
  obtain rfl : value = ("p" : Text) := of_decide_eq_true hvalue
  have hpackage : isInternal ("p" : Text) = false ∧ isBuiltin ("p" : Text) = false := by decide
  have hformat : externalFormat dynamicPackage ⟨.root, []⟩ "p" = .ok .dynamic :=
    eq_ok_of_succeedsWith (by decide +kernel)
  have halone : StandsAlone (SourceTree.read .plain wholeLast) n := standsAlone_of_mem_statements
    (over_read .plain wholeLast) (List.mem_of_getElem? hn) hroot
  obtain ⟨edits, -, -, hshim⟩ := interop_binds_iff rfl hlink hn n.mem_preorder_self hkind halone
    hsite hpackage.1 hpackage.2 hformat hclause
  obtain ⟨whole, hwrites, -, -, -, hperm⟩ := hshim htakes
  refine ⟨hlink, n, hn, clause, hclause, edits, whole, hwrites, ?_⟩
  rw [← hbound]
  simpa [addedBinding, hwhole] using hperm.2 hleft

/-- A script that imports a package as a whole under two names. -/
def wholeTwice : List Char := "import d, \x7b default as e, x \x7d from 'p';\n".toList

/-- A **second name for the package** is taken out of it as a property, and stands for that. -/
theorem second_whole_is_property :
    besidePackage wholeTwice
      = .ok "import d from 'p'; const \x7b default: e, x \x7d = d;\n" ∧
    ∃ n ∈ (SourceTree.read .plain wholeTwice).statements[0]?,
      ∃ clause ∈ n.part? "import_clause",
        boundBy wholeTwice (bindings clause)
          = [(("d" : Text), Taken.whole), (("e" : Text), Taken.whole),
            (("x" : Text), Taken.property "x")] ∧
        shimBindings "d" (takenBy wholeTwice n clause 0 "p").bindings
          = [(("d" : Text), Taken.whole), (("e" : Text), Taken.property "default"),
            (("x" : Text), Taken.property "x")] := by
  refine ⟨?_, by decide +kernel⟩
  rw [besidePackage, link_eq_map (over_read .plain wholeTwice)]
  exact eq_ok_of_succeedsWith (by decide +kernel)

end ScriptTree
