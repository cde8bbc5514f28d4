import ScriptTree.Proofs.Outcome
import ScriptTree.Proofs.Walk
import ScriptTree.Tree.Render

/-!
# Rendering is splicing

Rendering walks the tree, cuts the text at many places and leaves out parts of the walk where
nothing can have changed. What it writes is described here without the tree: the text is gone
through character by character, and at each one stands what was put in before it, and then the
character itself, the text in its place, or nothing. **Patches** are the ranges of the replaced nodes
that lie in no other replaced node.

Every offset between two children, at the start of a replaced node and at its end is written by
exactly one step of the walk, because each step writes what is put in at the offsets of a range that
is closed on the left and open on the right.

## Main results

* `emit_eq_spliced`: the whole text and the text of each node.
-/

namespace ScriptTree

open List Option Node
open Utf8 (IsBoundary size window)

/-! ### What is written, without the tree -/

/-- A text to put **in place of** a range of bytes. -/
structure Patch where
  start : Nat
  stop : Nat
  text : Text

namespace Patch

/-- Whether a byte lies in the range. -/
def covers (p : Patch) (offset : Nat) : Bool := p.start ≤ offset && offset < p.stop

/-- Whether an offset lies in the range and not at its start. -/
def encloses (p : Patch) (offset : Nat) : Bool := p.start < offset && offset < p.stop

end Patch

/-- What stands for a character of a **patched** text: the text put in before it, unless a patch
encloses the place, and then the patch that starts there, or the character, unless a patch covers
it. -/
def splicedAt (patches : List Patch) (inserted : Nat → Text) (q : Nat × Char) : Text :=
  (if patches.any (·.encloses q.1) then [] else inserted q.1)
    ++ match patches.find? (·.start == q.1) with
      | some p => p.text
      | none => if patches.any (·.covers q.1) then [] else [.scalar q.2]

/-- A range of bytes of a text, **patched** and with texts put in. -/
def spliced (cs : List Char) (patches : List Patch) (inserted : Nat → Text) (start stop : Nat) :
    Text :=
  (window cs start stop).flatMap (splicedAt patches inserted)

mutual

/-- The **patches** at and below a node: a replaced node hides those below it. -/
def Node.patches (edits : EditSet) : Node → List Patch
  | ⟨kind, named, missing, role, start, stop, children⟩ =>
    match edits.replacement? ⟨kind, named, missing, role, start, stop, children⟩ with
    | some text => [⟨start, stop, text⟩]
    | none => Node.patchesAll edits children

/-- The patches at and below some nodes. -/
def Node.patchesAll (edits : EditSet) : List Node → List Patch
  | [] => []
  | n :: ns => n.patches edits ++ Node.patchesAll edits ns

end

/-- The text put in **before a byte**: what was recorded for the byte, and then what was recorded
for the statements that end there, by the number of the statement. -/
def EditSet.textAt (edits : EditSet) (statements : List Node) (offset : Nat) : Text :=
  (edits.insertions.filter (·.1 == (offset : Int))).flatMap (·.2)
    ++ ((EditSet.byStatement edits.statementInsertions).filter fun (index, _) ↦
        (EditSet.statement? statements index).any (·.stop == offset)).flatMap (·.2)

/-! ### Looking up edits -/

namespace EditSet

variable {e : EditSet} {n m : Node} {text : Text} {changes : List (Node × Text)}

theorem replacement?_replace (e : EditSet) (n m : Node) (text : Text) :
    (e.replace n text).replacement? m = if m.key = n.key then some text else e.replacement? m := by
  have hfilter (h : m.key ≠ n.key) (l : List (NodeKey × Text)) :
      (l.filter (·.1 != n.key)).lookup m.key = l.lookup m.key := by
    induction l with
    | nil => rfl
    | cons r l ih =>
      obtain ⟨key, text⟩ := r
      by_cases hkey : key = n.key
      · have hne : (m.key == n.key) = false := by simpa using h
        simp [hkey, ih, lookup_cons, hne]
      · simp [hkey, ih, lookup_cons]
  show ((n.key, text) :: e.replacements.filter (·.1 != n.key)).lookup m.key = _
  rw [lookup_cons]
  by_cases h : m.key = n.key
  · simp [h]
  · rw [beq_eq_false_iff_ne.2 h, if_neg h]
    exact hfilter h _

theorem mem_replacements_replace {r : NodeKey × Text}
    (h : r ∈ (e.replace n text).replacements) : r = (n.key, text) ∨ r ∈ e.replacements :=
  (mem_cons.1 h).imp_right mem_of_mem_filter

theorem isSome_replacement?_replace (h : m.key = n.key ∨ (e.replacement? m).isSome) :
    ((e.replace n text).replacement? m).isSome := by
  rw [replacement?_replace]
  split
  · rfl
  · next hne => exact h.resolve_left hne

/-- The edits with texts in place of several nodes, one after the other. -/
def replaceAll (e : EditSet) (changes : List (Node × Text)) : EditSet :=
  changes.foldl (fun e c ↦ e.replace c.1 c.2) e

@[simp] theorem insertions_replaceAll (e : EditSet) (changes : List (Node × Text)) :
    (e.replaceAll changes).insertions = e.insertions := by
  induction changes generalizing e with
  | nil => rfl
  | cons c changes ih => exact ih _

@[simp] theorem statementInsertions_replaceAll (e : EditSet) (changes : List (Node × Text)) :
    (e.replaceAll changes).statementInsertions = e.statementInsertions := by
  induction changes generalizing e with
  | nil => rfl
  | cons c changes ih => exact ih _

theorem mem_replacements_replaceAll {r : NodeKey × Text}
    (h : r ∈ (e.replaceAll changes).replacements) :
    r ∈ e.replacements ∨ ∃ c ∈ changes, r = (c.1.key, c.2) := by
  induction changes generalizing e with
  | nil => exact .inl h
  | cons c changes ih =>
    rcases ih h with h | ⟨c', hc', hr⟩
    · rcases mem_replacements_replace h with hr | h
      · exact .inr ⟨c, mem_cons_self, hr⟩
      · exact .inl h
    · exact .inr ⟨c', mem_cons_of_mem _ hc', hr⟩

/-- Changes leave the nodes **as they are** that they are not for. -/
theorem replacement?_replaceAll (h : ∀ c ∈ changes, m.key ≠ c.1.key) :
    (e.replaceAll changes).replacement? m = e.replacement? m := by
  induction changes generalizing e with
  | nil => rfl
  | cons c changes ih =>
    refine (ih fun c' hc' ↦ h c' (mem_cons_of_mem _ hc')).trans ?_
    rw [replacement?_replace, if_neg (h c mem_cons_self)]

/-- What is replaced **stays** replaced, and so is what the changes are for. -/
theorem isSome_replacement?_replaceAll
    (h : (∃ c ∈ changes, m.key = c.1.key) ∨ (e.replacement? m).isSome) :
    ((e.replaceAll changes).replacement? m).isSome := by
  induction changes generalizing e with
  | nil => exact h.resolve_left (by simp)
  | cons c changes ih =>
    refine ih ?_
    rcases h with ⟨c', hc', hkey⟩ | h
    · rcases mem_cons.1 hc' with rfl | hc'
      · exact .inr (isSome_replacement?_replace (.inl hkey))
      · exact .inl ⟨c', hc', hkey⟩
    · exact .inr (isSome_replacement?_replace (.inr h))

end EditSet

/-! ### Patches side by side -/

section SplicedAt

variable {as bs : List Patch} {inserted : Nat → Text} {q : Nat × Char}

/-- Whether a patch says nothing about an offset: it has ended, or starts later. -/
def Patch.IsIdle (p : Patch) (offset : Nat) : Prop :=
  p.start < p.stop ∧ p.stop ≤ offset ∨ offset < p.start

theorem Patch.IsIdle.start_ne {p : Patch} {offset : Nat} (h : p.IsIdle offset) :
    p.start ≠ offset := by
  rcases h with h | h <;> omega

theorem any_encloses_of_isIdle (h : ∀ p ∈ as, p.IsIdle q.1) :
    as.any (·.encloses q.1) = false := by
  refine any_eq_false.2 fun p hp ↦ ?_
  simp only [Patch.encloses, Bool.and_eq_true, decide_eq_true_eq]
  rcases h p hp with h | h <;> omega

theorem any_covers_of_isIdle (h : ∀ p ∈ as, p.IsIdle q.1) : as.any (·.covers q.1) = false := by
  refine any_eq_false.2 fun p hp ↦ ?_
  simp only [Patch.covers, Bool.and_eq_true, decide_eq_true_eq]
  rcases h p hp with h | h <;> omega

theorem find?_start_of_isIdle (h : ∀ p ∈ as, p.IsIdle q.1) :
    as.find? (·.start == q.1) = none := by
  refine find?_eq_none.2 fun p hp ↦ ?_
  simpa using (h p hp).start_ne

theorem splicedAt_append_left (h : ∀ p ∈ bs, p.IsIdle q.1) :
    splicedAt (as ++ bs) inserted q = splicedAt as inserted q := by
  simp [splicedAt, any_encloses_of_isIdle h, any_covers_of_isIdle h, find?_start_of_isIdle h]

theorem splicedAt_append_right (h : ∀ p ∈ as, p.IsIdle q.1) :
    splicedAt (as ++ bs) inserted q = splicedAt bs inserted q := by
  simp [splicedAt, any_encloses_of_isIdle h, any_covers_of_isIdle h, find?_start_of_isIdle h]

/-- Without a patch a character stands as it is, after what is put in before it. -/
theorem splicedAt_nil : splicedAt [] inserted q = inserted q.1 ++ [.scalar q.2] := by
  simp [splicedAt]

end SplicedAt

section Spliced

variable {cs : List Char} {as bs : List Patch} {inserted : Nat → Text} {a b c : Nat}

theorem spliced_append (hab : a ≤ b) (hbc : b ≤ c) :
    spliced cs as inserted a c = spliced cs as inserted a b ++ spliced cs as inserted b c := by
  rw [spliced, Utf8.window_append cs hab hbc, flatMap_append]
  rfl

theorem spliced_append_left (h : ∀ p ∈ bs, b ≤ p.start) :
    spliced cs (as ++ bs) inserted a b = spliced cs as inserted a b := by
  refine flatMap_congr fun q hq ↦ splicedAt_append_left fun p hp ↦ .inr ?_
  exact Nat.lt_of_lt_of_le (Utf8.bounds_of_mem_window hq).2 (h p hp)

theorem spliced_append_right (h : ∀ p ∈ as, p.start < p.stop ∧ p.stop ≤ a) :
    spliced cs (as ++ bs) inserted a b = spliced cs bs inserted a b := by
  refine flatMap_congr fun q hq ↦ splicedAt_append_right fun p hp ↦ .inl ?_
  exact ⟨(h p hp).1, Nat.le_trans (h p hp).2 (Utf8.bounds_of_mem_window hq).1⟩

theorem spliced_self (h : b ≤ a) : spliced cs as inserted a b = [] := by
  rw [spliced, Utf8.window_of_le h, flatMap_nil]

/-- Only what is put in **within the range** matters. -/
theorem spliced_congr {inserted' : Nat → Text}
    (h : ∀ offset, a ≤ offset → offset < b → inserted offset = inserted' offset) :
    spliced cs as inserted a b = spliced cs as inserted' a b := by
  refine flatMap_congr fun q hq ↦ ?_
  obtain ⟨hstart, hstop⟩ := Utf8.bounds_of_mem_window hq
  rw [splicedAt, splicedAt, h q.1 hstart hstop]

/-- **One patch** over a whole range: what is put in at its start, and its text. -/
theorem spliced_patch {p : Patch} (hstart : IsBoundary cs p.start) (hlt : p.start < p.stop)
    (hsize : p.start < size cs) :
    spliced cs [p] inserted p.start p.stop = inserted p.start ++ p.text := by
  obtain ⟨c, rest, hwindow, hrest⟩ := Utf8.window_eq_cons hstart hlt hsize
  have hfirst : splicedAt [p] inserted (p.start, c) = inserted p.start ++ p.text := by
    simp [splicedAt, Patch.encloses]
  have hothers : rest.flatMap (splicedAt [p] inserted) = [] := by
    refine flatMap_eq_nil_iff.2 fun q hq ↦ ?_
    obtain ⟨hgt, hlt⟩ := hrest q hq
    have hne : (p.start == q.1) = false := by
      simp only [beq_eq_false_iff_ne]
      omega
    have hencloses : p.encloses q.1 = true := by simp [Patch.encloses, hgt, hlt]
    have hcovers : p.covers q.1 = true := by
      simp only [Patch.covers, Bool.and_eq_true, decide_eq_true_eq]
      omega
    simp [splicedAt, hencloses, hcovers, hne]
  rw [spliced, hwindow, flatMap_cons, hfirst, hothers, append_nil]

end Spliced

/-! ### The patches of a tree -/

section Patches

variable {cs : List Char} {edits : EditSet}

/-- A tree in which every replaced node has a **width**. -/
def Node.Wide (edits : EditSet) (n : Node) : Prop :=
  ∀ m ∈ n.preorder, (edits.replacement? m).isSome → m.start < m.stop

theorem Node.Wide.of_mem_preorder {n m : Node} (h : n.Wide edits) (hm : m ∈ n.preorder) :
    m.Wide edits := fun k hk ↦ h k (mem_preorder_trans hm hk)

theorem Node.Wide.of_mem_children {n m : Node} (h : n.Wide edits) (hm : m ∈ n.children) :
    m.Wide edits :=
  h.of_mem_preorder (mem_preorder_of_mem_children hm)

theorem Node.patches_of_some {n : Node} {text : Text} (h : edits.replacement? n = some text) :
    n.patches edits = [⟨n.start, n.stop, text⟩] := by
  cases n
  rw [Node.patches, h]

theorem Node.patches_of_none {n : Node} (h : edits.replacement? n = none) :
    n.patches edits = Node.patchesAll edits n.children := by
  cases n
  rw [Node.patches, h]

/-- The **patch** for a node, if it is replaced. -/
def Node.patch? (edits : EditSet) (n : Node) : Option Patch :=
  (edits.replacement? n).map (⟨n.start, n.stop, ·⟩)

/-- Whether a node is replaced. -/
def EditSet.replaces (edits : EditSet) (n : Node) : Bool := (edits.replacement? n).isSome

mutual

theorem Node.patches_eq : ∀ n : Node,
    n.patches edits = (n.reached edits.replaces).filterMap (Node.patch? edits)
  | ⟨kind, named, missing, role, start, stop, children⟩ => by
    rw [Node.patches, reached_eq, filterMap_cons, Node.patch?, EditSet.replaces]
    cases edits.replacement? ⟨kind, named, missing, role, start, stop, children⟩ with
    | none => simpa using patchesAll_eq children
    | some text => simp

/-- Patches are those of the nodes that a walk **reaches** if it passes over the replaced ones. -/
theorem Node.patchesAll_eq : ∀ ns : List Node,
    Node.patchesAll edits ns = (Node.reachedAll edits.replaces ns).filterMap (Node.patch? edits)
  | [] => rfl
  | n :: ns => by
    rw [Node.patchesAll, Node.reachedAll, filterMap_append, patches_eq n,
      patchesAll_eq ns]

end

theorem Node.patchesAll_eq_flatMap (ns : List Node) :
    Node.patchesAll edits ns = ns.flatMap (Node.patches edits) := by
  induction ns with
  | nil => rfl
  | cons n ns ih => rw [Node.patchesAll, flatMap_cons, ih]

/-- Only what is replaced **at and below a node** matters for its patches. -/
theorem Node.patches_congr {edits' : EditSet} {n : Node}
    (h : ∀ m ∈ n.preorder, edits.replacement? m = edits'.replacement? m) :
    n.patches edits = n.patches edits' := by
  induction n using Node.inductionOn with
  | _ n ih =>
    have hself := h n n.mem_preorder_self
    cases hr : edits.replacement? n with
    | some text => rw [patches_of_some hr, patches_of_some (hself ▸ hr)]
    | none =>
      rw [patches_of_none hr, patches_of_none (hself ▸ hr), patchesAll_eq_flatMap,
        patchesAll_eq_flatMap]
      refine flatMap_congr fun c hc ↦ ih c hc fun m hm ↦ h m ?_
      exact mem_preorder_trans (mem_preorder_of_mem_children hc) hm

/-- Whether a patch puts the text for a replaced **node** in its place. -/
def Patch.Replaces (edits : EditSet) (p : Patch) (n : Node) : Prop :=
  n.start = p.start ∧ n.stop = p.stop ∧ edits.replacement? n = some p.text

/-- The patches of nodes lie in **their range**, and each is for a replaced node. -/
theorem Node.bounds_of_mem_patchesAll {p : Patch} {ns : List Node} {a b : Nat}
    (hplaced : Node.PlacedIn cs a b ns) (hwide : ∀ n ∈ ns, n.Wide edits)
    (hp : p ∈ Node.patchesAll edits ns) :
    a ≤ p.start ∧ p.start < p.stop ∧ p.stop ≤ b ∧
      ∃ m ∈ Node.preorderAll ns, p.Replaces edits m := by
  rw [patchesAll_eq, mem_filterMap] at hp
  obtain ⟨m, hm, hpatch⟩ := hp
  obtain ⟨text, htext, rfl⟩ := map_eq_some_iff.1 hpatch
  have hm := mem_preorderAll_of_reachedAll hm
  obtain ⟨hstart, -, hstop⟩ := hplaced.of_mem_preorderAll hm
  obtain ⟨n, hn, hmn⟩ := mem_preorderAll.1 hm
  exact ⟨hstart, hwide n hn m hmn (by simp [htext]), hstop, m, hm, rfl, rfl, htext⟩

theorem Node.bounds_of_mem_patches {p : Patch} {n : Node} (hplaced : n.Placed cs)
    (hwide : n.Wide edits) (hp : p ∈ n.patches edits) :
    n.start ≤ p.start ∧ p.start < p.stop ∧ p.stop ≤ n.stop ∧
      ∃ m ∈ n.preorder, p.Replaces edits m := by
  have hone : Node.PlacedIn cs n.start n.stop [n] := ⟨Nat.le_refl _, hplaced, Nat.le_refl _⟩
  simpa [Node.preorderAll] using bounds_of_mem_patchesAll hone (by simpa using hwide)
    (p := p) (by simpa [Node.patchesAll] using hp)

/-- Every replaced node lies **inside a patch**. -/
theorem Node.exists_patch_of_mem_preorder {m n : Node} (hm : (edits.replacement? m).isSome)
    (hplaced : n.Placed cs) (hmem : m ∈ n.preorder) :
    ∃ p ∈ n.patches edits, p.start ≤ m.start ∧ m.stop ≤ p.stop := by
  obtain ⟨s, hs, hreplaced, hms⟩ :
      ∃ s ∈ n.reached edits.replaces, edits.replaces s = true ∧ m ∈ s.preorder := by
    rcases mem_reached_or hmem with h | ⟨s, hs, hreplaced, hms⟩
    · exact ⟨m, h, hm, m.mem_preorder_self⟩
    · exact ⟨s, hs, hreplaced, mem_preorder_of_below hms⟩
  obtain ⟨text, htext⟩ := isSome_iff_exists.1 hreplaced
  have hplaced := (hplaced.of_mem_preorder (mem_preorder_of_reached hs)).2.1
  obtain ⟨hstart, -, hstop⟩ := hplaced.of_mem_preorder hms
  rw [patches_eq]
  exact ⟨_, mem_filterMap.2 ⟨s, hs, by rw [Node.patch?, htext]; rfl⟩, hstart, hstop⟩

/-- The patches of a node **follow each other**. -/
theorem Node.pairwise_patches {n : Node} (hplaced : n.Placed cs) :
    (n.patches edits).Pairwise (·.stop ≤ ·.start) := by
  rw [patches_eq]
  refine (pairwise_reached hplaced).filterMap _ fun m k h p hp q hq ↦ ?_
  obtain ⟨text, htext, rfl⟩ := map_eq_some_iff.1 hp
  obtain ⟨-, -, rfl⟩ := map_eq_some_iff.1 hq
  -- Nothing below a replaced node is reached.
  exact h.resolve_right fun h ↦ by simp [EditSet.replaces, htext] at h

/-- A range with nodes is patched **piece by piece**: up to the first node, the node, and the
rest. -/
theorem Node.spliced_patchesAll_cons {n : Node} {ns : List Node} {a b : Nat} {inserted : Nat → Text}
    (hplaced : Node.PlacedIn cs a b (n :: ns)) (hwide : ∀ m ∈ n :: ns, m.Wide edits) :
    spliced cs (Node.patchesAll edits (n :: ns)) inserted a b
      = spliced cs [] inserted a n.start ++ spliced cs (n.patches edits) inserted n.start n.stop
        ++ spliced cs (Node.patchesAll edits ns) inserted n.stop b := by
  obtain ⟨hle, hn, hns⟩ := hplaced
  have hearly : ∀ p ∈ n.patches edits, n.start ≤ p.start ∧ p.start < p.stop ∧ p.stop ≤ n.stop :=
    fun p hp ↦ by
      obtain ⟨h₁, h₂, h₃, -⟩ := bounds_of_mem_patches hn (hwide n mem_cons_self) hp
      exact ⟨h₁, h₂, h₃⟩
  have hlate : ∀ p ∈ Node.patchesAll edits ns, n.stop ≤ p.start := fun p hp ↦
    (bounds_of_mem_patchesAll hns (fun m hm ↦ hwide m (mem_cons_of_mem _ hm)) hp).1
  have hgap : spliced cs (n.patches edits ++ Node.patchesAll edits ns) inserted a n.start
      = spliced cs [] inserted a n.start := by
    rw [← nil_append (n.patches edits ++ _)]
    refine spliced_append_left fun p hp ↦ ?_
    rcases mem_append.1 hp with hp | hp
    · exact (hearly p hp).1
    · exact Nat.le_trans hn.start_le_stop (hlate p hp)
  rw [Node.patchesAll, spliced_append hle (Nat.le_trans hn.start_le_stop hns.le),
    spliced_append (a := n.start) hn.start_le_stop hns.le, hgap, spliced_append_left hlate,
    spliced_append_right fun p hp ↦ ⟨(hearly p hp).2.1, (hearly p hp).2.2⟩, append_assoc]

end Patches

/-! ### Ranges of bytes -/

namespace Rendering

variable {cs : List Char} {r : Rendering} {a b : Nat}

/-- A rendering whose cuts lie **between characters**, in order, wherever something is put in or
replaced. -/
structure IsReady (r : Rendering) (cs : List Char) : Prop where
  source : r.tree.source = Utf8.encodeChars cs
  sorted : r.cuts.Pairwise (· < ·)
  boundary : ∀ c ∈ r.cuts, IsBoundary cs c
  inserts : ∀ offset, r.inserted offset ≠ [] → offset ∈ r.cuts
  replaces : ∀ n : Node, (r.edits.replacement? n).isSome → n.start ∈ r.cuts

theorem raw_eq (hr : r.IsReady cs) (ha : IsBoundary cs a) (hb : IsBoundary cs b) (hab : a ≤ b) :
    r.raw a b = .ok ((window cs a b).map (.scalar ·.2)) := by
  rw [raw, SourceTree.slice, hr.source, Utf8.decode_slice ha hb hab]
  simp [Except.map, Text.ofChars]

/-- Pieces between cuts: before each character at a cut stands what is put in there. -/
theorem pieces_eq (hr : r.IsReady cs) (hb : IsBoundary cs b) :
    ∀ {cuts : List Nat} {a : Nat}, IsBoundary cs a → a ≤ b → cuts.Pairwise (· < ·) →
      (∀ c ∈ cuts, IsBoundary cs c ∧ a ≤ c ∧ c < b) →
      r.pieces a b cuts = .ok ((window cs a b).flatMap fun q ↦
        (if q.1 ∈ cuts then r.inserted q.1 else []) ++ [.scalar q.2])
  | [], a, ha, hab, _, _ => by
    rw [pieces, raw_eq hr ha hb hab]
    simp [map_eq_flatMap]
  | c :: cuts, a, ha, hab, hsorted, hcuts => by
    obtain ⟨hc, hac, hcb⟩ := hcuts c mem_cons_self
    obtain ⟨hlater, hsorted⟩ := pairwise_cons.1 hsorted
    have hrest := pieces_eq hr hb hc (Nat.le_of_lt hcb) hsorted fun d hd ↦
      ⟨(hcuts d (mem_cons_of_mem _ hd)).1, Nat.le_of_lt (hlater d hd),
        (hcuts d (mem_cons_of_mem _ hd)).2.2⟩
    -- Nothing is cut before `c`, and at `c` itself only once.
    have hbefore : (window cs a c).flatMap (fun q ↦
        (if q.1 ∈ c :: cuts then r.inserted q.1 else []) ++ [.scalar q.2])
          = (window cs a c).map (.scalar ·.2) := by
      rw [map_eq_flatMap]
      refine flatMap_congr fun q hq ↦ ?_
      have hlt := (Utf8.bounds_of_mem_window hq).2
      have hnot : q.1 ∉ c :: cuts := by
        intro hmem
        rcases mem_cons.1 hmem with h | h
        · omega
        · have := hlater _ h
          omega
      rw [if_neg hnot, nil_append]
    obtain ⟨x, rest, hwindow, hafter⟩ :=
      Utf8.window_eq_cons hc hcb (Nat.lt_of_lt_of_le hcb hb.le)
    have hothers : rest.flatMap (fun q ↦
        (if q.1 ∈ c :: cuts then r.inserted q.1 else []) ++ [.scalar q.2])
          = rest.flatMap fun q ↦
            (if q.1 ∈ cuts then r.inserted q.1 else []) ++ [.scalar q.2] := by
      refine flatMap_congr fun q hq ↦ ?_
      have hne : q.1 ≠ c := Nat.ne_of_gt (hafter q hq).1
      simp [hne]
    have hfirst : c ∉ cuts := fun h ↦ Nat.lt_irrefl _ (hlater c h)
    rw [pieces, raw_eq hr ha hc hac, hrest, Utf8.window_append cs hac (Nat.le_of_lt hcb),
      flatMap_append, hbefore, hwindow, flatMap_cons, flatMap_cons, hothers]
    simp [bind, Except.bind, pure, Except.pure, hfirst]

/-- **A range of bytes** is written with everything that is put in, from its start on and up to its
end. -/
theorem slice_eq (hr : r.IsReady cs) (ha : IsBoundary cs a) (hb : IsBoundary cs b) :
    r.slice a b = .ok (spliced cs [] r.inserted a b) := by
  by_cases hab : b ≤ a
  · rw [slice, if_pos hab, spliced_self hab]
  · rw [slice, if_neg hab, pieces_eq hr hb ha (by omega) (hr.sorted.filter _)]
    · refine congrArg Except.ok (flatMap_congr fun q hq ↦ ?_)
      have hrange := Utf8.bounds_of_mem_window hq
      rw [splicedAt_nil]
      by_cases hcut : q.1 ∈ r.cuts
      · simp [hcut, hrange]
      · have hnone : r.inserted q.1 = [] := by
          by_contra h
          exact hcut (hr.inserts _ h)
        simp [hnone]
    · intro c hc
      obtain ⟨hmem, hrange⟩ := mem_filter.1 hc
      simp only [Bool.and_eq_true, decide_eq_true_eq] at hrange
      exact ⟨hr.boundary c hmem, hrange⟩

/-! ### Nodes -/

/-- Where no cut falls, no node is replaced. -/
theorem patchesAll_of_not_touches {ns : List Node} (hr : r.IsReady cs)
    (hplaced : Node.PlacedIn cs a b ns) (hwide : ∀ n ∈ ns, n.Wide r.edits)
    (h : r.touches a b = false) : Node.patchesAll r.edits ns = [] := by
  refine eq_nil_iff_forall_not_mem.2 fun p hp ↦ ?_
  obtain ⟨hstart, hlt, hstop, m, -, hm, -, hreplaced⟩ :=
    bounds_of_mem_patchesAll hplaced hwide hp
  have hcut := hr.replaces m (by rw [hreplaced]; rfl)
  have := any_eq_false.1 h m.start hcut
  simp only [Bool.and_eq_true, decide_eq_true_eq] at this
  omega

mutual

/-- **A node** is written as its range, patched. -/
theorem render_eq (hr : r.IsReady cs) :
    ∀ {n : Node}, n.Placed cs → n.Wide r.edits →
      r.render n = .ok (spliced cs (n.patches r.edits) r.inserted n.start n.stop)
  | ⟨kind, named, missing, role, start, stop, children⟩, hplaced, hwide => by
    obtain ⟨hstart, hstop, hchildren⟩ := hplaced
    rcases hrep : r.edits.replacement? ⟨kind, named, missing, role, start, stop, children⟩
      with - | text
    · have hwide' : ∀ n ∈ children, n.Wide r.edits := fun m ↦ hwide.of_mem_children
      rw [render, hrep, patches_of_none hrep]
      simp only
      split
      · next h =>
        -- Either there are no children or no cut touches them: there is nothing to patch.
        have hnone : Node.patchesAll r.edits children = [] := by
          rcases Bool.or_eq_true _ _ ▸ h with h | h
          · rw [List.isEmpty_iff.1 h]
            rfl
          · exact patchesAll_of_not_touches hr hchildren hwide' (by simpa using h)
        rw [slice_eq hr hstart hstop, hnone]
      · exact renderFrom_eq hr hstart hstop hchildren hwide'
    · have hlt : start < stop := hwide _ (mem_preorder_self _) (by rw [hrep]; rfl)
      rw [render, hrep, patches_of_some hrep]
      exact congrArg Except.ok
        (spliced_patch (p := ⟨start, stop, text⟩) hstart hlt (Nat.lt_of_lt_of_le hlt hstop.le)).symm

/-- **Nodes and what lies between them** are written as their range, patched. -/
theorem renderFrom_eq (hr : r.IsReady cs) :
    ∀ {ns : List Node} {a b : Nat}, IsBoundary cs a → IsBoundary cs b →
      Node.PlacedIn cs a b ns → (∀ n ∈ ns, n.Wide r.edits) →
      r.renderFrom a b ns = .ok (spliced cs (Node.patchesAll r.edits ns) r.inserted a b)
  | [], a, b, ha, hb, _, _ => slice_eq hr ha hb
  | n :: ns, a, b, ha, hb, hplaced, hwide => by
    have hwide' : ∀ m ∈ ns, m.Wide r.edits := fun m hm ↦ hwide m (mem_cons_of_mem _ hm)
    obtain ⟨hle, hn, hns⟩ := hplaced
    obtain ⟨hstart, hstop, -⟩ := placed_iff.1 hn
    rw [renderFrom, slice_eq hr ha hstart, render_eq hr hn (hwide n mem_cons_self),
      renderFrom_eq hr hstop hb hns hwide', spliced_patchesAll_cons ⟨hle, hn, hns⟩ hwide]
    rfl

end

end Rendering

/-! ### Making edits ready -/

/-- Edits that **fit** a tree over a text: texts are put in between characters or after statements
that exist, and what is replaced starts between characters and has a width. -/
structure EditSet.Fits (edits : EditSet) (tree : SourceTree) (cs : List Char) : Prop where
  offsets : ∀ i ∈ edits.insertions, ∃ offset : Nat, i.1 = offset ∧ IsBoundary cs offset
  statements : ∀ i ∈ edits.statementInsertions,
    (EditSet.statement? tree.statements i.1).isSome
  starts : ∀ r ∈ edits.replacements, IsBoundary cs r.1.start
  widths : tree.root.Wide edits

namespace EditSet

/-- Insertions after statements are ordered by the number of the statement. -/
theorem pairwise_byStatement (insertions : List (Int × Text)) :
    (byStatement insertions).Pairwise (·.1 ≤ ·.1) := by
  have h : (byStatement insertions).Pairwise (fun a b ↦ decide (a.1 ≤ b.1) = true) :=
    pairwise_mergeSort
      (fun a b c hab hbc ↦ by
        simp only [decide_eq_true_eq] at *
        exact Int.le_trans hab hbc)
      (fun a b ↦ by simpa using Int.le_total a.1 b.1) _
  exact h.imp fun hab ↦ by simpa using hab

/-- Insertions after one statement stay in the order in which they were recorded. -/
theorem filter_byStatement (insertions : List (Int × Text)) (index : Int) :
    (byStatement insertions).filter (·.1 = index) = insertions.filter (·.1 = index) := by
  have hperm : (byStatement insertions).Perm insertions := mergeSort_perm _ _
  have hsame : (insertions.filter (·.1 = index)).Pairwise
      fun a b ↦ decide (a.1 ≤ b.1) = true := by
    refine pairwise_of_forall_mem_list fun a ha b hb ↦ ?_
    have ha' := (mem_filter.1 ha).2
    have hb' := (mem_filter.1 hb).2
    simp only [decide_eq_true_eq] at *
    omega
  have hsub : (insertions.filter (·.1 = index)).Sublist (byStatement insertions) :=
    sublist_mergeSort
      (fun a b c hab hbc ↦ by
        simp only [decide_eq_true_eq] at *
        exact Int.le_trans hab hbc)
      (fun a b ↦ by simpa using Int.le_total a.1 b.1) hsame filter_sublist
  have hsub' : (insertions.filter (·.1 = index)).Sublist
      ((byStatement insertions).filter (·.1 = index)) := by
    simpa using hsub.filter (·.1 = index)
  exact (hsub'.eq_of_length (hperm.filter _).length_eq.symm).symm

/-- Where a statement ends, if it exists. -/
def statementStop (statements : List Node) (index : Int) : Int :=
  (statement? statements index).elim 0 (·.stop)

/-- All insertions as they are made ready, where the statements exist. -/
def resolved (edits : EditSet) (statements : List Node) : List (Int × Text) :=
  edits.insertions ++ (byStatement edits.statementInsertions).map fun i ↦
    (statementStop statements i.1, i.2)

variable {edits : EditSet} {tree : SourceTree} {cs : List Char}

theorem Fits.exists_statement (h : edits.Fits tree cs) {i : Int × Text}
    (hi : i ∈ byStatement edits.statementInsertions) :
    ∃ s, statement? tree.statements i.1 = some s :=
  isSome_iff_exists.1 (h.statements i ((mergeSort_perm _ _).mem_iff.1 hi))

theorem Fits.resolve_eq (h : edits.Fits tree cs) :
    edits.resolve tree.statements = .ok (edits.resolved tree.statements) := by
  rw [resolve, mapM_eq_ok (g := fun i ↦ (statementStop tree.statements i.1, i.2))]
  · rfl
  · intro i hi
    obtain ⟨s, hs⟩ := h.exists_statement hi
    simp [statementStop, hs]

/-- What is made ready to be put in at a byte is the text there. -/
theorem Fits.filter_resolved (h : edits.Fits tree cs) (offset : Nat) :
    ((edits.resolved tree.statements).filter (·.1 == (offset : Int))).flatMap (·.2)
      = edits.textAt tree.statements offset := by
  rw [resolved, List.filter_append, List.flatMap_append, List.filter_map, List.flatMap_map]
  congr 2
  refine List.filter_congr fun i hi ↦ ?_
  obtain ⟨s, hs⟩ := h.exists_statement hi
  rw [Bool.eq_iff_iff]
  simp only [Function.comp_apply, statementStop, hs, Option.elim_some, beq_iff_eq, Option.any_some]
  omega

/-- A statement that an index names is a child of the root. -/
theorem mem_children_of_statement? {index : Int} {s : Node}
    (h : statement? tree.statements index = some s) : s ∈ tree.root.children := by
  have hmem : s ∈ tree.statements := by
    unfold statement? at h
    split at h
    · exact mem_of_getElem? h
    · split at h
      · exact mem_of_getElem? h
      · simp at h
  exact mem_of_mem_filter (mem_of_mem_filter hmem)

/-- Texts are put in between characters. -/
theorem Fits.isBoundary_resolved (h : edits.Fits tree cs) (hplaced : tree.root.Placed cs)
    {i : Int × Text} (hi : i ∈ edits.resolved tree.statements) :
    ∃ offset : Nat, i.1 = offset ∧ IsBoundary cs offset := by
  rcases mem_append.1 hi with hi | hi
  · exact h.offsets i hi
  · obtain ⟨j, hj, rfl⟩ := mem_map.1 hi
    obtain ⟨s, hs⟩ := h.exists_statement hj
    have hmem := mem_preorder_of_mem_children (mem_children_of_statement? hs)
    have hstop := (placed_iff.1 (hplaced.of_mem_preorder hmem).2.1).2.1
    exact ⟨s.stop, by simp [statementStop, hs], hstop⟩

end EditSet

namespace Rendering

variable {tree : SourceTree} {edits : EditSet} {cs : List Char}

theorem nodup_eraseDups (l : List Nat) : l.eraseDups.Nodup := by
  induction h : l.length using Nat.strongRecOn generalizing l with
  | _ n ih =>
    cases l with
    | nil => simp
    | cons a l =>
      rw [eraseDups_cons, nodup_cons]
      refine ⟨by simp [mem_eraseDups], ih _ ?_ _ rfl⟩
      have := length_filter_le (fun b ↦ !b == a) l
      simp only [length_cons] at h
      omega

theorem mem_cutsOf {insertions : List (Int × Text)} {c : Nat} :
    c ∈ cutsOf edits insertions ↔
      (∃ r ∈ edits.replacements, r.1.start = c) ∨ ∃ i ∈ insertions, i.1 = (c : Int) := by
  simp only [cutsOf, List.mem_mergeSort, List.mem_eraseDups, List.mem_append, List.mem_map,
    mem_filter, decide_eq_true_eq]
  constructor
  · rintro (h | ⟨i, ⟨hi, hpos⟩, rfl⟩)
    · exact .inl h
    · exact .inr ⟨i, hi, by omega⟩
  · rintro (h | ⟨i, hi, hic⟩)
    · exact .inl h
    · exact .inr ⟨i, ⟨hi, by omega⟩, by omega⟩

theorem pairwise_cutsOf (insertions : List (Int × Text)) :
    (cutsOf edits insertions).Pairwise (· < ·) := by
  have hsorted : (cutsOf edits insertions).Pairwise (fun a b ↦ decide (a ≤ b) = true) :=
    pairwise_mergeSort
      (fun a b c hab hbc ↦ by
        simp only [decide_eq_true_eq] at *
        exact hab.trans hbc)
      (fun a b ↦ by simpa using Nat.le_total a b) _
  have hnodup : (cutsOf edits insertions).Nodup :=
    (mergeSort_perm _ _).nodup_iff.2 (nodup_eraseDups _)
  refine (hsorted.and hnodup).imp fun {a b} hab ↦ ?_
  have hle := hab.1
  simp only [decide_eq_true_eq] at hle
  exact Nat.lt_of_le_of_ne hle hab.2

/-- A rendering of a placed tree with edits that fit it **is ready**. -/
theorem isReady_of_fits (hsource : tree.source = Utf8.encodeChars cs)
    (hplaced : tree.root.Placed cs) (hfits : edits.Fits tree cs) :
    ∃ r, Rendering.of tree edits = .ok r ∧ r.IsReady cs ∧ r.tree = tree ∧ r.edits = edits ∧
      r.inserted = edits.textAt tree.statements := by
  let insertions := edits.resolved tree.statements
  refine ⟨⟨tree, edits, insertions, cutsOf edits insertions⟩, ?_, ?_, rfl, rfl, ?_⟩
  · rw [Rendering.of, hfits.resolve_eq]
  · refine ⟨hsource, pairwise_cutsOf _, fun c hc ↦ ?_, fun offset hoffset ↦ ?_, fun n hn ↦ ?_⟩
    · rcases mem_cutsOf.1 hc with ⟨r, hr, rfl⟩ | ⟨i, hi, hic⟩
      · exact hfits.starts r hr
      · obtain ⟨offset, hio, hoffset⟩ := hfits.isBoundary_resolved hplaced hi
        have heq : offset = c := by omega
        exact heq ▸ hoffset
    · obtain ⟨t, ht⟩ := exists_mem_of_ne_nil _ hoffset
      obtain ⟨i, hi, -⟩ := mem_flatMap.1 ht
      obtain ⟨hi, hic⟩ := mem_filter.1 hi
      exact mem_cutsOf.2 (.inr ⟨i, hi, by simpa using hic⟩)
    · obtain ⟨text, htext⟩ := isSome_iff_exists.1 hn
      exact mem_cutsOf.2 (.inl ⟨_, mem_of_lookup htext, rfl⟩)
  · funext offset
    exact hfits.filter_resolved offset

/-- **The whole text** is patched, and what is put in at its end stands last. -/
theorem whole_eq {r : Rendering} (hr : r.IsReady cs) (hplaced : r.tree.root.Placed cs)
    (hwide : r.tree.root.Wide r.edits) :
    r.whole = .ok (spliced cs (r.tree.root.patches r.edits) r.inserted 0 (size cs)
      ++ r.inserted (size cs)) := by
  obtain ⟨hstart, hstop, -⟩ := placed_iff.1 hplaced
  have hinside : Node.PlacedIn cs 0 (size cs) [r.tree.root] := ⟨Nat.zero_le _, hplaced, hstop.le⟩
  have hwalk := renderFrom_eq hr (Utf8.isBoundary_zero cs) (Utf8.isBoundary_size cs) hinside
    fun n hn ↦ mem_singleton.1 hn ▸ hwide
  simp only [renderFrom, Node.patchesAll, append_nil] at hwalk
  have hlength : r.tree.source.length = size cs := by rw [hr.source, Utf8.length_encodeChars]
  rw [slice_eq hr (Utf8.isBoundary_zero cs) hstart, render_eq hr hplaced hwide,
    slice_eq hr hstop (Utf8.isBoundary_size cs)] at hwalk
  rw [whole, hlength, slice_eq hr (Utf8.isBoundary_zero cs) hstart, render_eq hr hplaced hwide,
    slice_eq hr hstop (Utf8.isBoundary_size cs)]
  simp only [bind, Except.bind, pure, Except.pure, Except.ok.injEq] at hwalk ⊢
  rw [← hwalk]

end Rendering

/-! ### The whole text -/

section Emit

variable {tree : SourceTree} {edits : EditSet} {cs : List Char}

/-- Without insertions after statements, what is put in is what was recorded for the byte. -/
theorem EditSet.textAt_eq (hstatements : edits.statementInsertions = [])
    (statements : List Node) (offset : Nat) :
    edits.textAt statements offset
      = (edits.insertions.filter (·.1 == (offset : Int))).flatMap (·.2) := by
  simp [EditSet.textAt, EditSet.byStatement, hstatements]

theorem EditSet.textAt_of_nil (hinsertions : edits.insertions = [])
    (hstatements : edits.statementInsertions = []) (statements : List Node) :
    edits.textAt statements = fun _ ↦ [] := by
  funext offset
  simp [EditSet.textAt_eq hstatements, hinsertions]

/-- A tree without edits is written as its text. -/
theorem emit_of_isEmpty (hsource : tree.source = Utf8.encodeChars cs)
    (hplaced : tree.root.Placed cs) (hfits : edits.Fits tree cs) (h : edits.isEmpty) :
    tree.emit edits = .ok (spliced cs (tree.root.patches edits) (edits.textAt tree.statements) 0
      (size cs) ++ edits.textAt tree.statements (size cs)) := by
  have hread : tree.slice 0 tree.source.length = .ok (Text.ofChars ((window cs 0 (size cs)).map (·.2)))
      := by
    have hdecode := Utf8.decode_slice (Utf8.isBoundary_zero cs) (Utf8.isBoundary_size cs)
      (Nat.zero_le _)
    rw [SourceTree.slice, hsource, Utf8.length_encodeChars, hdecode]
    rfl
  rw [SourceTree.emit, if_pos h, hread]
  simp only [EditSet.isEmpty, Bool.and_eq_true, List.isEmpty_iff] at h
  obtain ⟨⟨hreplacements, hinsertions⟩, hstatements⟩ := h
  have hpatches : tree.root.patches edits = [] := by
    refine eq_nil_iff_forall_not_mem.2 fun p hp ↦ ?_
    obtain ⟨-, -, -, n, -, -, -, hreplaced⟩ := bounds_of_mem_patches hplaced hfits.widths hp
    simp [EditSet.replacement?, hreplacements] at hreplaced
  have hplain : splicedAt [] (fun _ ↦ []) = fun q ↦ [.scalar q.2] := by
    funext q
    rw [splicedAt_nil, nil_append]
  rw [hpatches, EditSet.textAt_of_nil hinsertions hstatements, spliced, hplain, ← map_eq_flatMap]
  simp [Text.ofChars]

/-- A tree in its place is **written** with the edits that fit it. -/
theorem emit_of_fits (hsource : tree.source = Utf8.encodeChars cs)
    (hplaced : tree.root.Placed cs) (hfits : edits.Fits tree cs) :
    tree.emit edits = .ok (spliced cs (tree.root.patches edits) (edits.textAt tree.statements) 0
      (size cs) ++ edits.textAt tree.statements (size cs)) := by
  by_cases hempty : edits.isEmpty
  · exact emit_of_isEmpty hsource hplaced hfits hempty
  · obtain ⟨r, hof, hready, rfl, rfl, hinserted⟩ := Rendering.isReady_of_fits hsource hplaced hfits
    rw [SourceTree.emit, if_neg hempty, hof, ← hinserted]
    exact Rendering.whole_eq hready hplaced hfits.widths

/-- A node in a tree in its place is **written** with the edits that fit the tree. -/
theorem renderNode_of_fits (hsource : tree.source = Utf8.encodeChars cs)
    (hplaced : tree.root.Placed cs) (hfits : edits.Fits tree cs) {n : Node}
    (hn : n ∈ tree.root.preorder) :
    tree.renderNode edits n
      = .ok (spliced cs (n.patches edits) (edits.textAt tree.statements) n.start n.stop) := by
  obtain ⟨r, hof, hready, rfl, rfl, hinserted⟩ := Rendering.isReady_of_fits hsource hplaced hfits
  have hbelow := hplaced.of_mem_preorder hn
  rw [SourceTree.renderNode, hof, ← hinserted]
  exact Rendering.render_eq hready hbelow.2.1 (Node.Wide.of_mem_preorder hfits.widths hn)

/-- Only the edits **in a node** matter for how it is written. -/
theorem renderNode_congr {edits' : EditSet} (hsource : tree.source = Utf8.encodeChars cs)
    (hplaced : tree.root.Placed cs) (hfits : edits.Fits tree cs) (hfits' : edits'.Fits tree cs)
    {n : Node} (hn : n ∈ tree.root.preorder)
    (hreplaced : ∀ m ∈ n.preorder, edits.replacement? m = edits'.replacement? m)
    (hinserted : ∀ offset, n.start ≤ offset → offset < n.stop →
      edits.textAt tree.statements offset = edits'.textAt tree.statements offset) :
    tree.renderNode edits n = tree.renderNode edits' n := by
  rw [renderNode_of_fits hsource hplaced hfits hn, renderNode_of_fits hsource hplaced hfits' hn,
    patches_congr hreplaced, spliced_congr hinserted]

/-- **Writing is splicing.** Over the bytes of a text, with a tree in its place and edits that fit
it, the whole tree and each node in it is written as its range of the text in which the patches take
the place of what they cover and every insertion that no patch encloses stands before its byte.
The patches are the replaced nodes that lie in no other: they follow each other, each is for a
replaced node, and every replaced node lies in one. Insertions at one byte stand in the order of
recording, and those after statements follow by the number of the statement. -/
theorem emit_eq_spliced (hsource : tree.source = Utf8.encodeChars cs)
    (hplaced : tree.root.Placed cs) (hfits : edits.Fits tree cs) :
    tree.emit edits = .ok (spliced cs (tree.root.patches edits) (edits.textAt tree.statements) 0
        (size cs) ++ edits.textAt tree.statements (size cs)) ∧
      (∀ n ∈ tree.root.preorder, tree.renderNode edits n
        = .ok (spliced cs (n.patches edits) (edits.textAt tree.statements) n.start n.stop)) ∧
      (tree.root.patches edits).Pairwise (·.stop ≤ ·.start) ∧
      (∀ p ∈ tree.root.patches edits, ∃ n ∈ tree.root.preorder, p.Replaces edits n) ∧
      (∀ n ∈ tree.root.preorder, (edits.replacement? n).isSome →
        ∃ p ∈ tree.root.patches edits, p.start ≤ n.start ∧ n.stop ≤ p.stop) ∧
      (EditSet.byStatement edits.statementInsertions).Pairwise (·.1 ≤ ·.1) ∧
      ∀ index, (EditSet.byStatement edits.statementInsertions).filter (·.1 = index)
        = edits.statementInsertions.filter (·.1 = index) := by
  have hwide := hfits.widths
  exact ⟨emit_of_fits hsource hplaced hfits,
    fun n hn ↦ renderNode_of_fits hsource hplaced hfits hn, Node.pairwise_patches hplaced,
    fun p hp ↦ (Node.bounds_of_mem_patches hplaced hwide hp).2.2.2,
    fun n hn hreplaced ↦ Node.exists_patch_of_mem_preorder hreplaced hplaced hn,
    EditSet.pairwise_byStatement _, EditSet.filter_byStatement _⟩

/-- The tree of `f(é, g);x`, two statements of which the first is a call. -/
def callTree : SourceTree where
  source := Utf8.encodeChars "f(é, g);x".toList
  root := {
    kind := "program", start := 0, stop := 10
    children := [
      { kind := "expression_statement", start := 0, stop := 9
        children := [
          { kind := "identifier", start := 0, stop := 1 },
          { kind := "arguments", start := 1, stop := 8
            children := [
              { kind := "identifier", start := 2, stop := 4 },
              { kind := "identifier", start := 6, stop := 7 }] },
          { kind := ";", named := false, start := 8, stop := 9 }] },
      { kind := "identifier", start := 9, stop := 10 }] }

/-- Edits of `callTree`: the arguments and one of them are replaced, and texts are put in at the
start, inside and at the end of the arguments, and after both statements. -/
def callEdits : EditSet where
  replacements := [(⟨6, 7, "identifier"⟩, "hidden"), (⟨1, 8, "arguments"⟩, "[]")]
  insertions := [(8, "B"), (9, "O"), (4, "hidden"), (1, "A"), (10, "E"), (8, "C")]
  statementInsertions := [(0, "S"), (-1, "T"), (0, "R")]

/-- At one call, with one replaced node inside another. -/
theorem emit_callTree : callTree.emit callEdits = .ok (Text.ofString "fA[]BC;OSRxET") := by
  have hplaced : callTree.root.Placed "f(é, g);x".toList := by
    simp only [callTree, Node.Placed, Node.PlacedIn]
    decide
  have hfits : callEdits.Fits callTree "f(é, g);x".toList :=
    ⟨fun i hi ↦ ⟨i.1.toNat, by revert i; decide⟩, by decide, by decide,
      by unfold Node.Wide; decide⟩
  refine (emit_eq_spliced rfl hplaced hfits).1.trans ?_
  cbv

end Emit

end ScriptTree
