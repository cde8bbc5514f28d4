import ScriptTree.Proofs.Collected

/-!
# Compiled enums and elements

An enum is compiled when the walk comes to it and an element when the walk is over, each with the
edits that there are by then. What comes later leaves the text as it is: no later edit is for a node
below an enum or an element that has been compiled. So the texts are those that the **final edits**
give, and the edits can be described without the order in which they were made.

That two nodes have the same range and kind does not make them the same node. An enum or an element
has several children, so none of the nodes below it has its range.

## Main results

* `Transform.compileEnum_eq`: an enum is compiled as with the final edits.
* `Transform.compiled_compileElements`: the edits when all elements are compiled.
-/

namespace ScriptTree.Transform

open List Node
open Utf8 (IsBoundary size)
open Node (preorderAll)

variable {tree : SourceTree} {names : MarkupNames} {path : Option Path} {d : Dialect}
  {cs : List Char} {n m q : Node} {w : Work} {edits edits' : EditSet} {done : List Node}

/-! ### How nodes lie to each other -/

/-- Two of some nodes in their places are the same or lie **apart**. -/
theorem apart_of_mem {ns : List Node} {a b : Nat} (h : Node.PlacedIn cs a b ns) (hm : m ∈ ns)
    (hq : q ∈ ns) : m = q ∨ m.stop ≤ q.start ∨ q.stop ≤ m.start := by
  induction ns generalizing a with
  | nil => simp at hm
  | cons n ns ih =>
    rcases mem_cons.1 hm with rfl | hm'
    · rcases mem_cons.1 hq with rfl | hq'
      · exact .inl rfl
      · exact .inr (.inl (h.2.2.of_mem hq').1)
    · rcases mem_cons.1 hq with rfl | hq'
      · exact .inr (.inr (h.2.2.of_mem hm').1)
      · exact ih h.2.2 hm' hq'

/-- What lies below one of **several** nodes with widths does not fill their range. -/
theorem narrow_of_mem {ns : List Node} {a b : Nat} (h : Node.PlacedIn cs a b ns)
    (hlength : 2 ≤ ns.length) (hwide : ∀ n ∈ ns, n.start < n.stop) (hm : m ∈ preorderAll ns) :
    a < m.start ∨ m.stop < b := by
  obtain ⟨x, y, rest, rfl⟩ : ∃ x y rest, ns = x :: y :: rest := by
    match ns, hlength with
    | x :: y :: rest, _ => exact ⟨x, y, rest, rfl⟩
  have hx := hwide x (by simp)
  have hy := hwide y (by simp)
  rcases mem_append.1 hm with hm | hm
  · have hinside := (h.2.1.of_mem_preorder hm).2.2
    have hstart := h.2.2.1
    have hstop := (h.2.2.of_mem mem_cons_self).2.2
    exact .inr (by omega)
  · have hstart := (h.2.2.of_mem_preorderAll hm).1
    have := h.1
    exact .inl (by omega)

/-- How a node lies to **another**: before it, after it or around it. -/
def LiesOff (q n : Node) : Prop :=
  q.stop ≤ n.start ∨ n.stop ≤ q.start ∨ q.start ≤ n.start ∧ n.stop ≤ q.stop

/-- What lies **below** a node has a width. -/
theorem start_lt_stop_of_below (hover : tree.Over d cs) (hn : n ∈ tree.root.preorder)
    (hm : m ∈ preorderAll n.children) : m.start < m.stop :=
  hover.wide m (mem_preorderAll_of_below hn hm)

/-- What lies below a node that forks **does not fill** it. -/
theorem narrow_of_forked (hover : tree.Over d cs) (hn : n ∈ tree.root.preorder)
    (hforked : n.kind ∈ Node.forkedKinds) (hm : m ∈ preorderAll n.children) :
    n.start < m.start ∨ m.stop < n.stop :=
  narrow_of_mem (placed_iff.1 (hover.placed.of_mem_preorder hn).2.1).2.2
    ((hover.fine n hn).forked hforked)
    (fun _ hk ↦ start_lt_stop_of_below hover hn (mem_preorderAll_of_mem hk)) hm

/-- A node off one that forks is **none of those below** it. -/
theorem LiesOff.key_ne (hover : tree.Over d cs) (hn : n ∈ tree.root.preorder)
    (hforked : n.kind ∈ Node.forkedKinds) (hm : m ∈ preorderAll n.children) (h : LiesOff q n) :
    m.key ≠ q.key := by
  have hplaced := (placed_iff.1 (hover.placed.of_mem_preorder hn).2.1).2.2
  have hnarrow := narrow_of_forked hover hn hforked hm
  obtain ⟨hstart, -, hstop⟩ := hplaced.of_mem_preorderAll hm
  have hwide := start_lt_stop_of_below hover hn hm
  intro hkey
  simp only [Node.key, NodeKey.mk.injEq] at hkey
  unfold LiesOff at h
  omega

/-- A typed part of a node that is reached earlier lies off one that is reached later. -/
theorem liesOff_of_precedes {k : Node} (hplaced : k.Placed cs)
    (h : Node.Precedes isPassedOver k n) (hq : q ∈ typedParts k) : LiesOff q n := by
  have hinside := hplaced.of_mem_preorder (mem_preorder_of_typedParts hq)
  rcases h with h | ⟨-, h⟩
  · exact .inl (Nat.le_trans hinside.2.2 h)
  · have hchildren := (placed_iff.1 hplaced).2.2
    have hbelow := hchildren.of_mem_preorderAll h
    rcases eq_or_mem_children_of_typedParts hq with rfl | hq
    · exact .inr (.inr ⟨hbelow.1, hbelow.2.2⟩)
    · obtain ⟨c, hc, hn⟩ := mem_preorderAll.1 h
      have hinc := (hchildren.of_mem hc).2.1.of_mem_preorder hn
      rcases apart_of_mem hchildren hq hc with rfl | hapart | hapart
      · exact .inr (.inr ⟨hinc.1, hinc.2.2⟩)
      · exact .inl (hapart.trans hinc.1)
      · exact .inr (.inl (Nat.le_trans hinc.2.2 hapart))

theorem pairwise_reached (h : tree.Over d cs) :
    (reached tree).Pairwise (Node.Precedes isPassedOver) := by
  have hplaced := (placed_iff.1 h.placed).2.2
  have hstatements : tree.statements.Sublist tree.root.children :=
    filter_sublist.trans filter_sublist
  exact pairwise_reachedAll (hplaced.of_sublist hstatements)

/-! ### Compiling -/

/-- Only the edits **in a node** matter for how it is written. -/
theorem rendered_congr (hover : tree.Over d cs) (hfits : edits.Fits tree cs)
    (hfits' : edits'.Fits tree cs) (hn : n ∈ tree.root.preorder)
    (hreplaced : ∀ m ∈ n.preorder, edits.replacement? m = edits'.replacement? m)
    (hinserted : ∀ offset, n.start ≤ offset → offset < n.stop →
      edits.textAt tree.statements offset = edits'.textAt tree.statements offset) :
    tree.rendered edits n = tree.rendered edits' n := by
  rw [SourceTree.rendered, SourceTree.rendered,
    renderNode_congr hover.source hover.placed hfits hfits' hn hreplaced hinserted]

theorem compileEnum_congr
    (h : ∀ m ∈ preorderAll n.children, tree.rendered edits m = tree.rendered edits' m) :
    compileEnum tree edits n = compileEnum tree edits' n := by
  have hmember (name : Text) (state : EnumState) (member : Node)
      (hmember : member ∈ ((n.child? .body).map (·.parts)).getD []) :
      enumMember tree edits name state member = enumMember tree edits' name state member := by
    cases hbody : n.child? .body with
    | none => simp [hbody] at hmember
    | some body =>
      have hmember : member ∈ body.children := by
        rw [hbody] at hmember
        exact mem_of_mem_filter (mem_of_mem_filter hmember)
      have hvalue {value : Node} (hvalue : member.child? .value = some value) :
          tree.rendered edits value = tree.rendered edits' value := by
        refine h value (mem_preorderAll.2 ⟨body, mem_of_find?_eq_some hbody, ?_⟩)
        exact mem_preorder_of_child (mem_preorder_of_mem_children hmember)
          (mem_of_find?_eq_some hvalue)
      have hmemberValue : memberValue tree edits state (member.child? .value)
          = memberValue tree edits' state (member.child? .value) := by
        cases hchild : member.child? .value with
        | none => rfl
        | some value => simp only [memberValue, hvalue hchild]
      unfold enumMember
      cases member.kind == "enum_assignment" with
      | true => simp only [if_true, hmemberValue]
      | false => simp only [Bool.false_eq_true, if_false, memberValue]
  unfold compileEnum
  simp only [foldlM_congr fun state member hm ↦ hmember _ state member hm]

theorem mem_preorderAll_of_parts {part : Node} (hm : m ∈ preorderAll n.children)
    (hpart : part ∈ m.parts) : part ∈ preorderAll n.children :=
  mem_preorderAll_trans hm
    (mem_preorder_of_mem_children (mem_of_mem_filter (mem_of_mem_filter hpart)))

theorem markupProp_congr
    (h : ∀ m ∈ preorderAll n.children, tree.rendered edits m = tree.rendered edits' m)
    (hm : m ∈ preorderAll n.children) :
    markupProp tree edits m = markupProp tree edits' m := by
  have hpart {part : Node} (hpart : part ∈ m.parts) :
      tree.rendered edits part = tree.rendered edits' part :=
    h part (mem_preorderAll_of_parts hm hpart)
  have hvalue {value : Node} (hvalue : value ∈ m.parts) :
      attributeValue tree edits value = attributeValue tree edits' value := by
    unfold attributeValue
    rw [hpart hvalue]
    cases hinner : value.parts.head? with
    | none => rfl
    | some inner =>
      have hmem := mem_preorderAll_of_parts (mem_preorderAll_of_parts hm hvalue)
        (mem_of_mem_head? hinner)
      simp only [h inner hmem]
  unfold markupProp
  split
  · cases hinner : m.parts.head? with
    | none => rfl
    | some inner => simp only [hpart (mem_of_mem_head? hinner)]
  · cases hparts : m.parts with
    | nil => rfl
    | cons key rest =>
      cases hhead : rest.head? with
      | none => simp only [hhead]
      | some value =>
        have hmem : value ∈ m.parts := by
          rw [hparts]
          exact mem_cons_of_mem _ (mem_of_mem_head? hhead)
        simp only [hhead, hvalue hmem]

theorem argumentsFrom_congr
    (h : ∀ m ∈ preorderAll n.children, tree.rendered edits m = tree.rendered edits' m)
    {ns : List Node} (hns : ns ⊆ n.children) (stop cursor : Nat) :
    argumentsFrom tree edits stop cursor ns = argumentsFrom tree edits' stop cursor ns := by
  induction ns generalizing cursor with
  | nil => rfl
  | cons child ns ih =>
    have hmem : child ∈ preorderAll n.children :=
      mem_preorderAll_of_mem (hns mem_cons_self)
    have hchild : childArgument tree edits child = childArgument tree edits' child := by
      unfold childArgument
      rw [h child hmem]
      cases hinner : child.parts.head? with
      | none => rfl
      | some inner =>
        simp only [h inner (mem_preorderAll_of_parts hmem (mem_of_mem_head? hinner))]
    simp only [argumentsFrom, hchild, ih fun k hk ↦ hns (mem_cons_of_mem _ hk)]

theorem compileElement_congr
    (h : ∀ m ∈ preorderAll n.children, tree.rendered edits m = tree.rendered edits' m) :
    compileElement tree edits names n = compileElement tree edits' names n := by
  have hopening {k : Node} (hk : k ∈ ((n.child? .openTag).getD n).children) :
      k ∈ preorderAll n.children := by
    cases hopen : n.child? .openTag with
    | none =>
      rw [hopen] at hk
      exact mem_preorderAll_of_mem hk
    | some opening =>
      rw [hopen] at hk
      exact mem_preorderAll.2
        ⟨opening, mem_of_find?_eq_some hopen, mem_preorder_of_mem_children hk⟩
  have hprops : markupProps tree edits (((n.child? .openTag).getD n).childrenWith .attribute)
      = markupProps tree edits' (((n.child? .openTag).getD n).childrenWith .attribute) := by
    have hmapM := mapM_congr fun m hm ↦ markupProp_congr h (hopening (mem_of_mem_filter
      (show m ∈ ((n.child? .openTag).getD n).childrenWith .attribute from hm)))
    rw [markupProps, markupProps, hmapM]
  have hchildren (opening closing : Node) : markupChildren tree edits n opening closing
      = markupChildren tree edits' n opening closing :=
    argumentsFrom_congr h (fun k hk ↦ mem_of_mem_filter hk) _ _
  unfold compileElement factoryCall
  simp only [hprops, hchildren]

/-! ### Enums -/

theorem liesOff_self (n : Node) : LiesOff n n := .inr (.inr ⟨Nat.le_refl _, Nat.le_refl _⟩)

/-- Edits off a node that forks **replace nothing below** it. -/
theorem EditsFor.replacement?_eq_none (h : EditsFor tree done edits) (hover : tree.Over d cs)
    (hn : n ∈ tree.root.preorder) (hforked : n.kind ∈ Node.forkedKinds)
    (hoff : ∀ k ∈ done, ∀ q ∈ typedParts k, LiesOff q n) (hm : m ∈ preorderAll n.children) :
    edits.replacement? m = none := by
  cases hreplaced : edits.replacement? m with
  | none => rfl
  | some text =>
    obtain ⟨k, hk, q, hq, hkey⟩ := h.keys _ (mem_of_lookup hreplaced)
    exact absurd hkey ((hoff k hk q hq).key_ne hover hn hforked hm)

/-- Where a node stands among those that are reached. -/
theorem precedes_of_reached (hover : tree.Over d cs) {before after : List Node}
    (hreached : reached tree = before ++ n :: after) :
    (∀ k ∈ before, Node.Precedes isPassedOver k n) ∧
      ∀ k ∈ after, Node.Precedes isPassedOver n k := by
  have hpairwise := pairwise_reached hover
  rw [hreached, pairwise_append] at hpairwise
  obtain ⟨-, hafter, hbefore⟩ := hpairwise
  exact ⟨fun k hk ↦ hbefore k hk n mem_cons_self, (pairwise_cons.1 hafter).1⟩

section PassedOver

variable {before after : List Node}

/-- What is reached after a node that is passed over **starts where it has ended**. -/
theorem stop_le_start_of_isPassedOver (hover : tree.Over d cs)
    (hreached : reached tree = before ++ n :: after) (hpassed : isPassedOver n = true) {k : Node}
    (hk : k ∈ after) : n.stop ≤ k.start :=
  ((precedes_of_reached hover hreached).2 k hk).resolve_right (by simp [hpassed])

theorem placed_of_reached (hover : tree.Over d cs) (hn : n ∈ reached tree) : n.Placed cs :=
  (hover.placed.of_mem_preorder (mem_preorder_of_reached hn)).2.1

/-- **No typed part** lies below a node that is passed over, unless it is one of that node's own. -/
theorem liesOff_of_isPassedOver (hover : tree.Over d cs)
    (hreached : reached tree = before ++ n :: after) (hpassed : isPassedOver n = true) {k : Node}
    (hk : k ∈ reached tree) (hself : k = n → LiesOff q n) (hq : q ∈ typedParts k) :
    LiesOff q n := by
  have hplaced := placed_of_reached hover hk
  rw [hreached] at hk
  rcases mem_append.1 hk with hk | hk
  · exact liesOff_of_precedes hplaced ((precedes_of_reached hover hreached).1 k hk) hq
  · rcases mem_cons.1 hk with heq | hk
    · exact hself heq
    · have hinside := hplaced.of_mem_preorder (mem_preorder_of_typedParts hq)
      have hstart := stop_le_start_of_isPassedOver hover hreached hpassed hk
      exact .inr (.inl (hstart.trans hinside.1))

/-- Up to the end of a node that is passed over, the nodes before it decide what is **put in**. -/
theorem textAt_eq_of_isPassedOver (hover : tree.Over d cs)
    (hreached : reached tree = before ++ n :: after) (hpassed : isPassedOver n = true)
    (hnone : propertyInsertion tree n = none) (h : EditsFor tree before edits)
    (h' : EditsFor tree (reached tree) edits') {offset : Nat} (hoffset : offset < n.stop) :
    edits.textAt tree.statements offset = edits'.textAt tree.statements offset := by
  have hlater : ((n :: after).filterMap (propertyInsertion tree)).filter (·.1 == (offset : Int))
      = [] := by
    refine filter_eq_nil_iff.2 fun i hi ↦ ?_
    obtain ⟨k, hk, hinsertion⟩ := mem_filterMap.1 hi
    rcases mem_cons.1 hk with rfl | hk
    · exact absurd (hnone.symm.trans hinsertion) (by simp)
    · have hplaced : k.Placed cs := placed_of_reached hover (by simp [hreached, hk])
      obtain ⟨o, ho, -, hstart, -⟩ := bounds_of_propertyInsertion hplaced hinsertion
      have := stop_le_start_of_isPassedOver hover hreached hpassed hk
      simp only [beq_iff_eq]
      omega
  rw [EditSet.textAt_eq h.statements, EditSet.textAt_eq h'.statements, h.insertions, h'.insertions,
    hreached, filterMap_append, filter_append, hlater, append_nil]

/-- An enum is compiled with the edits for the nodes before it **as with all** of them. -/
theorem compileEnum_eq (hover : tree.Over d cs) (hreached : reached tree = before ++ n :: after)
    (hkind : n.kind = "enum_declaration") (h : EditsFor tree before edits)
    (h' : EditsFor tree (reached tree) edits') :
    compileEnum tree edits n = compileEnum tree edits' n := by
  have hpassed : isPassedOver n = true := by rw [isPassedOver, hkind]; rfl
  have hparts : typedParts n = [n] := by rw [typedParts, erasedParts, rewrittenParts, hkind]; rfl
  have hnone : propertyInsertion tree n = none := by simp [propertyInsertion, hkind]
  have hforked : n.kind ∈ Node.forkedKinds := by rw [hkind]; decide
  have hsubset : before ⊆ reached tree := hreached ▸ subset_append_left _ _
  have hroot : n ∈ tree.root.preorder := mem_preorder_of_reached (by simp [hreached])
  have hoff (k) (hk : k ∈ reached tree) (q) (hq : q ∈ typedParts k) : LiesOff q n := by
    refine liesOff_of_isPassedOver hover hreached hpassed hk (fun heq ↦ ?_) hq
    rw [heq, hparts] at hq
    exact mem_singleton.1 hq ▸ liesOff_self q
  refine compileEnum_congr fun m hm ↦ ?_
  have hm' := mem_preorder_of_below hm
  refine rendered_congr hover (h.fits hover hsubset) (h'.fits hover (List.Subset.refl _))
    (mem_preorder_trans hroot hm') (fun k hk ↦ ?_) (fun offset _ hstop ↦ ?_)
  · -- Neither edits replace anything below the enum.
    have hk' := mem_preorderAll_trans hm hk
    rw [h.replacement?_eq_none hover hroot hforked (fun k hk ↦ hoff k (hsubset hk)) hk',
      h'.replacement?_eq_none hover hroot hforked hoff hk']
  · have hinside := ((hover.placed.of_mem_preorder hroot).2.1.of_mem_preorder hm').2.2
    exact textAt_eq_of_isPassedOver hover hreached hpassed hnone h h'
      (hstop.trans_le hinside)

end PassedOver

/-! ### Elements -/

variable {elements : List Node}

theorem compileElements_cons (edits : EditSet) (e : Node) (elements : List Node) :
    compileElements tree names edits (e :: elements) = (do
      let text ← compileElement tree edits names e
      compileElements tree names (edits.replace e text) elements) := by
  simp only [compileElements, foldlM_cons, bind_assoc, pure_bind]

/-- Elements replace **only themselves**. -/
theorem replacement?_compileElements
    (h : compileElements tree names edits elements = .ok edits')
    (hm : ∀ e ∈ elements, m.key ≠ e.key) : edits'.replacement? m = edits.replacement? m := by
  induction elements generalizing edits with
  | nil => rw [(pure_eq_ok_iff.1 h : edits = edits')]
  | cons e elements ih =>
    rw [compileElements_cons] at h
    obtain ⟨text, -, h⟩ := bind_eq_ok_iff.1 h
    rw [ih h fun k hk ↦ hm k (mem_cons_of_mem _ hk), EditSet.replacement?_replace,
      if_neg (hm e mem_cons_self)]

/-- Elements are replaced, and what was replaced **stays** so. -/
theorem isSome_replacement?_compileElements
    (h : compileElements tree names edits elements = .ok edits')
    (hm : m ∈ elements ∨ (edits.replacement? m).isSome) : (edits'.replacement? m).isSome := by
  induction elements generalizing edits with
  | nil =>
    rw [← (pure_eq_ok_iff.1 h : edits = edits')]
    exact hm.resolve_left (by simp)
  | cons e elements ih =>
    rw [compileElements_cons] at h
    obtain ⟨text, -, h⟩ := bind_eq_ok_iff.1 h
    refine ih h ?_
    rcases hm with hm | hm
    · rcases mem_cons.1 hm with rfl | hm
      · exact .inr (EditSet.isSome_replacement?_replace (.inl rfl))
      · exact .inl hm
    · exact .inr (EditSet.isSome_replacement?_replace (.inr hm))

/-- Edits for some nodes are **still so** when elements among them are compiled. -/
theorem EditsFor.compileElements (h : EditsFor tree done edits)
    (helements : ∀ e ∈ elements, e ∈ done ∧ elementKinds.contains e.kind = true)
    (hcompile : compileElements tree names edits elements = .ok edits') :
    EditsFor tree done edits' := by
  induction elements generalizing edits with
  | nil => exact (pure_eq_ok_iff.1 hcompile : edits = edits') ▸ h
  | cons e elements ih =>
    rw [compileElements_cons] at hcompile
    obtain ⟨text, -, hcompile⟩ := bind_eq_ok_iff.1 hcompile
    have hreplaced : EditsFor tree done (edits.replace e text) := by
      refine ⟨fun r hr ↦ ?_, h.insertions, h.statements⟩
      rcases EditSet.mem_replacements_replace hr with rfl | hr
      · obtain ⟨hdone, helement⟩ := helements e mem_cons_self
        exact ⟨e, hdone, e, by simp [typedParts_of_element helement], rfl⟩
      · exact h.keys r hr
    exact ih hreplaced (fun k hk ↦ helements k (mem_cons_of_mem _ hk)) hcompile

/-- Where the text of a replacement **comes from**: it was there before, or an element was compiled
with the edits for the elements before it. -/
theorem mem_replacements_compileElements {r : NodeKey × Text}
    (h : compileElements tree names edits elements = .ok edits') (hr : r ∈ edits'.replacements) :
    r ∈ edits.replacements ∨ ∃ before e after edits₁, elements = before ++ e :: after ∧
      compileElements tree names edits before = .ok edits₁ ∧
      compileElement tree edits₁ names e = .ok r.2 ∧ r.1 = e.key ∧
      compileElements tree names edits₁ (e :: after) = .ok edits' := by
  induction elements generalizing edits with
  | nil => exact .inl ((pure_eq_ok_iff.1 h : edits = edits') ▸ hr)
  | cons e elements ih =>
    have h' := h
    rw [compileElements_cons] at h'
    obtain ⟨text, htext, h'⟩ := bind_eq_ok_iff.1 h'
    rcases ih h' with hr | ⟨before, k, after, edits₁, rfl, hbefore, hk, hkey, hafter⟩
    · rcases EditSet.mem_replacements_replace hr with rfl | hr
      · exact .inr ⟨[], e, elements, edits, rfl, rfl, htext, rfl, h⟩
      · exact .inl hr
    · refine .inr ⟨e :: before, k, after, edits₁, rfl, ?_, hk, hkey, hafter⟩
      rw [compileElements_cons, htext]
      exact hbefore

/-! ### The edits when all is compiled -/

theorem Rewrites.congr {text : Text}
    (henum : n.kind = "enum_declaration" → compileEnum tree edits n = compileEnum tree edits' n)
    (helement : elementKinds.contains n.kind = true →
      compileElement tree edits names n = compileElement tree edits' names n)
    (h : Rewrites tree names edits n m text) : Rewrites tree names edits' n m text := by
  cases h with
  | gone hm => exact .gone hm
  | assigned hm hkind hword => exact .assigned hm hkind hword
  | listed hm hkind hclause hitems => exact .listed hm hkind hclause hitems
  | required hm hclause hbinding hsource => exact .required hm hclause hbinding hsource
  | renamed hm hkind hbinding hvalue => exact .renamed hm hkind hbinding hvalue
  | enum hm hkind htext => exact .enum hm hkind (henum hkind ▸ htext)
  | element hm hkind htext => exact .element hm hkind (helement hkind ▸ htext)

/-- The edits when all is **compiled**: each typed part is replaced, but for imports that are put
off, and each text is what these very edits give. -/
structure Compiled (tree : SourceTree) (names : MarkupNames) (edits : EditSet) : Prop where
  editsFor : EditsFor tree (reached tree) edits
  replaced : ∀ n ∈ reached tree, isPutOff n = false → ∀ m ∈ typedParts n,
    (edits.replacement? m).isSome
  texts : ∀ r ∈ edits.replacements, ∃ n ∈ reached tree, isPutOff n = false ∧
    ∃ m ∈ typedParts n, r.1 = m.key ∧ Rewrites tree names edits n m r.2

/-- An element is compiled with the edits for the elements after it **as with all** of them. -/
theorem compileElement_eq (hover : tree.Over d cs) (hn : n ∈ reached tree)
    (helement : elementKinds.contains n.kind = true) {earlier : List Node}
    (hearlier : ∀ k ∈ earlier, k ∈ reached tree ∧ elementKinds.contains k.kind = true ∧
      Node.Precedes isPassedOver k n)
    (h : EditsFor tree (reached tree) edits)
    (hcompile : compileElements tree names edits (n :: earlier) = .ok edits') :
    compileElement tree edits names n = compileElement tree edits' names n := by
  have hroot := mem_preorder_of_reached hn
  have hforked : n.kind ∈ Node.forkedKinds := by
    have hkinds : elementKinds ⊆ Node.forkedKinds := by decide
    exact hkinds (by simpa using helement)
  have hall (k) (hk : k ∈ n :: earlier) :
      k ∈ reached tree ∧ elementKinds.contains k.kind = true := by
    rcases mem_cons.1 hk with rfl | hk
    · exact ⟨hn, helement⟩
    · exact ⟨(hearlier k hk).1, (hearlier k hk).2.1⟩
  have hoff (k) (hk : k ∈ n :: earlier) : LiesOff k n := by
    rcases mem_cons.1 hk with rfl | hk
    · exact liesOff_self k
    · obtain ⟨hreached, hkind, hprecedes⟩ := hearlier k hk
      exact liesOff_of_precedes (placed_of_reached hover hreached) hprecedes
        (by simp [typedParts_of_element hkind])
  have h' := h.compileElements hall hcompile
  refine compileElement_congr fun m hm ↦ ?_
  refine rendered_congr hover (h.fits hover (List.Subset.refl _))
    (h'.fits hover (List.Subset.refl _))
    (mem_preorder_trans hroot (mem_preorder_of_below hm)) (fun k hk ↦ ?_)
    (fun offset _ _ ↦ ?_)
  · -- The elements that are left replace only themselves, and lie off what is below this one.
    refine (replacement?_compileElements hcompile fun e he ↦ ?_).symm
    exact (hoff e he).key_ne hover hroot hforked (mem_preorderAll_trans hm hk)
  · rw [EditSet.textAt_eq h.statements, EditSet.textAt_eq h'.statements, h.insertions,
      h'.insertions]

/-- The elements that the walk has noted are nodes that it reaches. -/
theorem Collected.reached_of_elements (h : Collected tree names (reached tree) w)
    (hn : n ∈ w.elements) : n ∈ reached tree ∧ elementKinds.contains n.kind = true := by
  rw [h.elements, mem_reverse, mem_filter] at hn
  exact hn

/-- The elements are compiled from the last one on, so those that are left **come earlier** in the
script. -/
theorem Collected.precedes_of_elements (h : Collected tree names (reached tree) w)
    (hover : tree.Over d cs) {later earlier : List Node}
    (hsplit : w.elements = later ++ n :: earlier) : ∀ k ∈ earlier, k ∈ reached tree ∧
      elementKinds.contains k.kind = true ∧ Node.Precedes isPassedOver k n := by
  have hpairwise : w.elements.Pairwise fun a b ↦ Node.Precedes isPassedOver b a := by
    rw [h.elements, pairwise_reverse]
    exact (pairwise_reached hover).filter _
  rw [hsplit, pairwise_append] at hpairwise
  intro k hk
  obtain ⟨hreached, hkind⟩ := h.reached_of_elements (n := k) (by simp [hsplit, hk])
  exact ⟨hreached, hkind, (pairwise_cons.1 hpairwise.2.1).1 k hk⟩

/-- The edits when the elements that the walk has noted are **compiled**. -/
theorem compiled_compileElements (hover : tree.Over d cs) (hcollect : collect tree path = .ok w)
    (hcompile : compileElements tree names w.edits w.elements = .ok edits) :
    Compiled tree names edits := by
  have hcollected : Collected tree names (reached tree) w := collected_collect hcollect
  have helements (e) (he : e ∈ w.elements) :
      e ∈ reached tree ∧ elementKinds.contains e.kind = true := hcollected.reached_of_elements he
  have heditsFor := hcollected.editsFor.compileElements helements hcompile
  refine ⟨heditsFor, fun n hn hputOff m hm ↦ ?_, fun r hr ↦ ?_⟩
  · refine isSome_replacement?_compileElements hcompile ?_
    cases helement : elementKinds.contains n.kind with
    | true =>
      rw [typedParts_of_element helement, mem_singleton] at hm
      subst hm
      rw [hcollected.elements, mem_reverse]
      exact .inl (mem_filter.2 ⟨hn, helement⟩)
    | false =>
      exact .inr (hcollected.replaced n hn (by rw [isDelayed, helement, hputOff]; rfl) m hm)
  · rcases mem_replacements_compileElements hcompile hr with
      hr | ⟨later, e, earlier, edits₁, hsplit, hlater, htext, hkey, hrest⟩
    · obtain ⟨before, n, after, hreached, hdelayed, m, hm, hkey, edits₀, hedits₀, htext⟩ :=
        hcollected.texts r hr
      rw [isDelayed, Bool.or_eq_false_iff] at hdelayed
      refine ⟨n, by simp [hreached], hdelayed.2, m, hm, hkey, htext.congr (fun hkind ↦ ?_) ?_⟩
      · exact compileEnum_eq hover hreached hkind hedits₀ heditsFor
      · exact fun helement ↦ absurd (hdelayed.1.symm.trans helement) Bool.false_ne_true
    · obtain ⟨he, helement⟩ := helements e (by simp [hsplit])
      refine ⟨e, he, isPutOff_of_element helement, e, by simp [typedParts_of_element helement],
        hkey, .element (by simp [rewrittenParts_of_element helement]) helement ?_⟩
      have hedits₁ := hcollected.editsFor.compileElements
        (fun k hk ↦ helements k (by simp [hsplit, hk])) hlater
      rw [← compileElement_eq hover he helement (hcollected.precedes_of_elements hover hsplit)
        hedits₁ hrest]
      exact htext

end ScriptTree.Transform
