import ScriptTree.Proofs.MarkupCall

/-!
# Nodes that stand open

A replaced node hides what is replaced below it. Where **nothing around** a node is replaced, its
patches are among those of the whole tree, with the others before it and after it. So the plain text
falls into three: what is written for the script before the node, for the node, and after it. For a
node of which one child is replaced, the part in the middle is the script with one patch.

## Main results

* `Node.exists_patches_eq`: the patches of a node among those of the tree.
* `Transform.patches_replace_child`, `Transform.spliced_singleton`: one child is replaced.
* `Transform.plainTree_eq_of_standsOpen`: the plain text in three parts.
-/

namespace ScriptTree

open List Node
open Utf8 (IsBoundary size)

/-- A node around which **nothing is replaced**. -/
def StandsOpen (edits : EditSet) (root n : Node) : Prop :=
  ∀ k ∈ root.preorder, n ∈ Node.preorderAll k.children → edits.replacement? k = none

variable {cs : List Char} {edits : EditSet} {m : Node}

mutual

/-- The patches of a node that stands open are **among those of the tree**: the others end before it
or start after it. -/
theorem Node.exists_patches_eq : ∀ {n : Node}, n.Placed cs → n.Wide edits → m ∈ n.preorder →
    StandsOpen edits n m → ∃ before after, n.patches edits = before ++ m.patches edits ++ after ∧
      (∀ p ∈ before, p.stop ≤ m.start) ∧ ∀ p ∈ after, m.stop ≤ p.start
  | ⟨kind, named, missing, role, start, stop, children⟩, hplaced, hwide, hm, hopen => by
    rcases mem_cons.1 hm with rfl | hm
    · exact ⟨[], [], by simp, by simp, by simp⟩
    · rw [patches_of_none (hopen _ (mem_preorder_self _) hm)]
      exact exists_patchesAll_eq hplaced.2.2 (fun k ↦ hwide.of_mem_children) hm
        fun k hk ↦ hopen k (mem_cons_of_mem _ hk)

theorem Node.exists_patchesAll_eq : ∀ {ns : List Node} {a b : Nat}, Node.PlacedIn cs a b ns →
    (∀ n ∈ ns, n.Wide edits) → m ∈ Node.preorderAll ns →
    (∀ k ∈ Node.preorderAll ns, m ∈ Node.preorderAll k.children → edits.replacement? k = none) →
    ∃ before after, Node.patchesAll edits ns = before ++ m.patches edits ++ after ∧
      (∀ p ∈ before, p.stop ≤ m.start) ∧ ∀ p ∈ after, m.stop ≤ p.start
  | [], _, _, _, _, hm, _ => by simp [Node.preorderAll] at hm
  | n :: ns, _, _, ⟨_, hn, hns⟩, hwide, hm, hopen => by
    have hwide' : ∀ k ∈ ns, k.Wide edits := fun k hk ↦ hwide k (mem_cons_of_mem _ hk)
    rcases mem_append.1 hm with hm | hm
    · obtain ⟨before, after, heq, hbefore, hafter⟩ :=
        exists_patches_eq hn (hwide n mem_cons_self) hm fun k hk ↦
          hopen k (mem_append_left _ hk)
      refine ⟨before, after ++ Node.patchesAll edits ns, ?_, hbefore, fun p hp ↦ ?_⟩
      · rw [Node.patchesAll, heq, append_assoc]
      · rcases mem_append.1 hp with hp | hp
        · exact hafter p hp
        · exact Nat.le_trans (hn.of_mem_preorder hm).2.2
            (bounds_of_mem_patchesAll hns hwide' hp).1
    · obtain ⟨before, after, heq, hbefore, hafter⟩ :=
        exists_patchesAll_eq hns hwide' hm fun k hk ↦ hopen k (mem_append_right _ hk)
      refine ⟨n.patches edits ++ before, after, ?_, fun p hp ↦ ?_, hafter⟩
      · rw [Node.patchesAll, heq]
        simp only [append_assoc]
      · rcases mem_append.1 hp with hp | hp
        · exact Nat.le_trans
            (bounds_of_mem_patches hn (hwide n mem_cons_self) hp).2.2.1
            (hns.of_mem_preorderAll hm).1
        · exact hbefore p hp

end

/-- Within a node that stands open only **its own patches** do anything. -/
theorem spliced_of_standsOpen {root : Node} {inserted : Nat → Text} (hplaced : root.Placed cs)
    (hwide : root.Wide edits) (hm : m ∈ root.preorder) (hopen : StandsOpen edits root m) :
    spliced cs (root.patches edits) inserted m.start m.stop
      = spliced cs (m.patches edits) inserted m.start m.stop := by
  obtain ⟨before, after, heq, hbefore, hafter⟩ :=
    exists_patches_eq hplaced hwide hm hopen
  rw [heq, spliced_append_left hafter, spliced_append_right fun p hp ↦ ⟨?_, hbefore p hp⟩]
  exact (bounds_of_mem_patches hplaced hwide (by simp [heq, hp])).2.1

namespace Transform

open Node (preorderAll)

variable {tree : SourceTree} {names : MarkupNames} {path : Option Path} {d : Dialect} {n : Node}
  {text : Text} {elide : Bool}

/-! ### Statements -/

theorem statements_sublist (tree : SourceTree) : tree.statements.Sublist tree.root.children :=
  filter_sublist.trans filter_sublist

/-- The statements of a script lie **one after the other**. -/
theorem placedIn_statements (hover : tree.Over d cs) :
    Node.PlacedIn cs tree.root.start tree.root.stop tree.statements :=
  (placed_iff.1 hover.placed).2.2.of_sublist (statements_sublist tree)

theorem start_lt_stop_of_mem_statements (hover : tree.Over d cs)
    (hm : m ∈ preorderAll tree.statements) : m.start < m.stop :=
  hover.wide m (mem_preorderAll_mono (statements_sublist tree).subset hm)

/-! ### Ranges with one patch -/

/-- Only what is put in **at its start** is put into a range. -/
theorem spliced_of_start {patches : List Patch} {inserted : Nat → Text} {a b : Nat}
    (ha : IsBoundary cs a) (hab : a < b) (hsize : a < size cs)
    (hpatches : ∀ p ∈ patches, a ≤ p.start)
    (hinserted : ∀ offset, a < offset → offset < b → inserted offset = []) :
    spliced cs patches inserted a b = inserted a ++ spliced cs patches (fun _ ↦ []) a b := by
  obtain ⟨c, rest, hwindow, hrest⟩ := Utf8.window_eq_cons ha hab hsize
  have hencloses : patches.any (·.encloses a) = false := by
    refine any_eq_false.2 fun p hp ↦ ?_
    have := hpatches p hp
    simp only [Patch.encloses, Bool.and_eq_true, decide_eq_true_eq]
    omega
  have hothers : rest.flatMap (splicedAt patches inserted)
      = rest.flatMap (splicedAt patches fun _ ↦ []) := by
    refine flatMap_congr fun q hq ↦ ?_
    rw [splicedAt, splicedAt, hinserted q.1 (hrest q hq).1 (hrest q hq).2]
  rw [spliced, spliced, hwindow, flatMap_cons, flatMap_cons, hothers, splicedAt,
    splicedAt, hencloses]
  simp

theorem spliced_nil_eq_scriptText (cs : List Char) (a b : Nat) :
    spliced cs [] (fun _ ↦ []) a b = scriptText cs a b := by
  rw [spliced, scriptText, between, Text.ofChars]
  induction Utf8.window cs a b with
  | nil => rfl
  | cons q qs ih =>
    rw [flatMap_cons, ih]
    rfl

/-- **One patch** inside a range in which nothing is put in. -/
theorem spliced_singleton {p : Patch} {a b : Nat} (hstart : IsBoundary cs p.start)
    (hlt : p.start < p.stop) (ha : a ≤ p.start) (hb : p.stop ≤ b) (hsize : b ≤ size cs) :
    spliced cs [p] (fun _ ↦ []) a b
      = scriptText cs a p.start ++ p.text ++ scriptText cs p.stop b := by
  have hbefore : spliced cs [p] (fun _ ↦ []) a p.start = scriptText cs a p.start := by
    rw [← nil_append [p], spliced_append_left (by simp), spliced_nil_eq_scriptText]
  have hafter : spliced cs [p] (fun _ ↦ []) p.stop b = scriptText cs p.stop b := by
    rw [← append_nil [p], spliced_append_right (by simpa using hlt), spliced_nil_eq_scriptText]
  rw [spliced_append ha (Nat.le_trans hlt.le hb), spliced_append hlt.le hb,
    hbefore, spliced_patch hstart hlt (by omega), hafter, nil_append, append_assoc]

/-- Edits that replace nothing have **no patches**. -/
theorem patches_empty (hplaced : n.Placed cs) : n.patches {} = [] := by
  refine eq_nil_iff_forall_not_mem.2 fun p hp ↦ ?_
  have hnone (m : Node) : ({} : EditSet).replacement? m = none := rfl
  obtain ⟨-, -, -, m, -, -, -, htext⟩ := bounds_of_mem_patches hplaced
    (fun m _ hm ↦ by simp [hnone] at hm) hp
  simp [hnone] at htext

/-- Edits that replace one child, which no node around has the key of, have **one patch**. -/
theorem patches_replace_child (hplaced : n.Placed cs) (hm : m ∈ n.children)
    (hwidth : m.start < m.stop) (hkey : n.key ≠ m.key) (text : Text) :
    n.patches (({} : EditSet).replace m text) = [⟨m.start, m.stop, text⟩] := by
  have hreplacement (k : Node) : (({} : EditSet).replace m text).replacement? k
      = if k.key = m.key then some text else none := EditSet.replacement?_replace _ _ _ _
  have hchildren := (placed_iff.1 hplaced).2.2
  have hwide : n.Wide (({} : EditSet).replace m text) := by
    intro k _ hk
    rw [hreplacement] at hk
    split at hk
    · next heq =>
      simp only [Node.key, NodeKey.mk.injEq] at heq
      omega
    · simp at hk
  have hopen : StandsOpen (({} : EditSet).replace m text) n m := by
    intro k hk hbelow
    rw [hreplacement, if_neg]
    rcases mem_preorder.1 hk with rfl | hk
    · exact hkey
    · intro _
      obtain ⟨c, hc, hkc⟩ := mem_preorderAll.1 hk
      have hmc := mem_preorder_trans hkc (mem_preorder_of_below hbelow)
      rcases apart_of_mem hchildren hc hm with rfl | hapart
      · have hshort := length_preorder_lt hbelow
        have hlong := length_preorder_le_of_mem hkc
        omega
      · obtain ⟨hstart, -, hstop⟩ := (hchildren.of_mem hc).2.1.of_mem_preorder hmc
        omega
  obtain ⟨before, after, heq, hbefore, hafter⟩ :=
    exists_patches_eq hplaced hwide (mem_preorder_of_mem_children hm) hopen
  have hbounds (p) (hp : p ∈ n.patches (({} : EditSet).replace m text)) :
      p.start = m.start ∧ p.stop = m.stop := by
    obtain ⟨-, -, -, k, -, hstart, hstop, htext⟩ := bounds_of_mem_patches hplaced hwide hp
    rw [hreplacement] at htext
    split at htext
    · next hkey =>
      simp only [Node.key, NodeKey.mk.injEq] at hkey
      omega
    · cases htext
  have hnil : before = [] ∧ after = [] := by
    constructor <;> refine eq_nil_iff_forall_not_mem.2 fun p hp ↦ ?_
    · have := hbounds p (by simp [heq, hp])
      have := hbefore p hp
      omega
    · have := hbounds p (by simp [heq, hp])
      have := hafter p hp
      omega
  rw [heq, hnil.1, hnil.2, patches_of_some (by rw [hreplacement, if_pos rfl])]
  rfl

/-! ### Plain texts -/

/-- What is written for a script **up to** a byte. -/
def writtenBefore (tree : SourceTree) (cs : List Char) (edits : EditSet) (offset : Nat) : Text :=
  spliced cs (tree.root.patches edits) (assignedAt tree) 0 offset ++ assignedAt tree offset

/-- What is written for a script **from** a byte on. -/
def writtenAfter (tree : SourceTree) (cs : List Char) (edits : EditSet) (offset : Nat) : Text :=
  spliced cs (tree.root.patches edits) (assignedAt tree) offset (size cs)
    ++ assignedAt tree (size cs)

/-- The plain text **in three parts**: what is written for a node that stands open, between what is
written before it and after it. -/
theorem plainTree_eq_of_standsOpen (hover : tree.Over d cs)
    (hplain : plainEdits tree names elide path = .ok edits) (hn : n ∈ tree.root.preorder)
    (hopen : StandsOpen edits tree.root n)
    (hrendered : tree.rendered edits n = .ok (assignedAt tree n.start ++ text)) :
    plainTree tree names elide path
      = .ok (writtenBefore tree cs edits n.start ++ text ++ writtenAfter tree cs edits n.stop) := by
  obtain ⟨used, edits₀, -, hall⟩ := exists_allEdits hover hplain
  have hfits := hall.fits hover
  rw [rendered_eq_spliced hover hfits (textAt_eq_assignedAt hall.insertions hall.statements) hn]
    at hrendered
  have hplaced := (hover.placed.of_mem_preorder hn).2.1
  have hstop := (placed_iff.1 hplaced).2.1.le
  rw [plainTree_eq hover, hplain, Except.map, writtenBefore, writtenAfter,
    spliced_append (Nat.zero_le n.start) (Nat.le_trans hplaced.start_le_stop hstop),
    spliced_append hplaced.start_le_stop hstop,
    spliced_of_standsOpen hover.placed hfits.widths hn hopen, Except.ok.inj hrendered]
  simp only [append_assoc]

end Transform

end ScriptTree
