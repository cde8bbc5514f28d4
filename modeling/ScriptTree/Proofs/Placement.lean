import ScriptTree.Proofs.Utf8
import ScriptTree.Tree.Node

/-!
# Nodes in their place

A tree over a text is **placed** when every node starts and ends between characters, and the
children of a node follow each other inside it without overlapping. Nothing is said about the kinds
of nodes: a placed tree is what the bytes of a script can be cut along.

## Main results

* `Node.inductionOn`: induction over trees.
* `Node.Placed.of_mem_preorder`: what lies below a node lies inside it.
-/

namespace ScriptTree

open Utf8 (IsBoundary)

namespace Node

mutual

/-- A node that lies **in its place** over a text. -/
def Placed (cs : List Char) : Node → Prop
  | ⟨_, _, _, _, start, stop, children⟩ =>
    IsBoundary cs start ∧ IsBoundary cs stop ∧ PlacedIn cs start stop children

/-- Nodes in their places that **follow each other** in a range. -/
def PlacedIn (cs : List Char) (start stop : Nat) : List Node → Prop
  | [] => start ≤ stop
  | n :: ns => start ≤ n.start ∧ Placed cs n ∧ PlacedIn cs n.stop stop ns

end

variable {cs : List Char} {n : Node} {ns ms : List Node} {a b c : Nat}

theorem placed_iff :
    n.Placed cs ↔
      IsBoundary cs n.start ∧ IsBoundary cs n.stop ∧ PlacedIn cs n.start n.stop n.children := by
  cases n
  rfl

@[simp] theorem placedIn_nil : PlacedIn cs a b [] ↔ a ≤ b := Iff.rfl

@[simp] theorem placedIn_cons :
    PlacedIn cs a b (n :: ns) ↔ a ≤ n.start ∧ n.Placed cs ∧ PlacedIn cs n.stop b ns := Iff.rfl

mutual

/-- A node ends where it starts or later. -/
theorem Placed.start_le_stop : ∀ {n : Node}, n.Placed cs → n.start ≤ n.stop
  | ⟨_, _, _, _, _, _, _⟩, h => h.2.2.le

/-- Nodes need a range that is not turned round. -/
theorem PlacedIn.le : ∀ {ns : List Node} {a b : Nat}, PlacedIn cs a b ns → a ≤ b
  | [], _, _, h => h
  | _ :: _, _, _, h => Nat.le_trans h.1 (Nat.le_trans h.2.1.start_le_stop h.2.2.le)

end

/-- A wider range holds the same nodes. -/
theorem PlacedIn.mono (h : PlacedIn cs a b ns) {a' b' : Nat} (ha : a' ≤ a) (hb : b ≤ b') :
    PlacedIn cs a' b' ns := by
  induction ns generalizing a a' with
  | nil => exact Nat.le_trans ha (Nat.le_trans h hb)
  | cons n ns ih => exact ⟨Nat.le_trans ha h.1, h.2.1, ih h.2.2 (Nat.le_refl _)⟩

/-- Nodes in two ranges side by side. -/
theorem PlacedIn.append (h : PlacedIn cs a b ns) (h' : PlacedIn cs b c ms) :
    PlacedIn cs a c (ns ++ ms) := by
  induction ns generalizing a with
  | nil => exact h'.mono h (Nat.le_refl _)
  | cons n ns ih => exact ⟨h.1, h.2.1, ih h.2.2⟩

/-- Some of the nodes in a range are in their places there. -/
theorem PlacedIn.of_sublist (h : PlacedIn cs a b ns) (hms : ms.Sublist ns) :
    PlacedIn cs a b ms := by
  induction hms generalizing a with
  | slnil => exact h
  | cons n _ ih => exact (ih h.2.2).mono (Nat.le_trans h.1 h.2.1.start_le_stop) (Nat.le_refl _)
  | cons_cons n _ ih => exact ⟨h.1, h.2.1, ih h.2.2⟩

/-- Each of some nodes lies in the range, and in its place. -/
theorem PlacedIn.of_mem (h : PlacedIn cs a b ns) (hn : n ∈ ns) :
    a ≤ n.start ∧ n.Placed cs ∧ n.stop ≤ b := by
  induction ns generalizing a with
  | nil => simp at hn
  | cons m ms ih =>
    rcases List.mem_cons.1 hn with rfl | hn
    · exact ⟨h.1, h.2.1, h.2.2.le⟩
    · obtain ⟨hstart, hplaced, hstop⟩ := ih h.2.2 hn
      exact ⟨Nat.le_trans h.1 (Nat.le_trans h.2.1.start_le_stop hstart), hplaced, hstop⟩

/-! ### The nodes below a node -/

theorem preorder_eq (n : Node) : n.preorder = n :: preorderAll n.children := by
  cases n
  rfl

theorem mem_preorder {m : Node} : m ∈ n.preorder ↔ m = n ∨ m ∈ preorderAll n.children := by
  rw [preorder_eq, List.mem_cons]

theorem mem_preorder_self (n : Node) : n ∈ n.preorder := mem_preorder.2 (.inl rfl)

theorem preorderAll_eq (ns : List Node) : preorderAll ns = ns.flatMap preorder := by
  induction ns with
  | nil => rfl
  | cons n ns ih => rw [preorderAll, ih, List.flatMap_cons]

theorem mem_preorderAll {m : Node} : m ∈ preorderAll ns ↔ ∃ n ∈ ns, m ∈ n.preorder := by
  rw [preorderAll_eq, List.mem_flatMap]

theorem mem_preorderAll_of_mem {m : Node} (hm : m ∈ ns) : m ∈ preorderAll ns :=
  mem_preorderAll.2 ⟨m, hm, m.mem_preorder_self⟩

theorem mem_preorder_of_below {m : Node} (hm : m ∈ preorderAll n.children) : m ∈ n.preorder :=
  mem_preorder.2 (.inr hm)

theorem mem_preorder_of_mem_children {m : Node} (hm : m ∈ n.children) : m ∈ n.preorder :=
  mem_preorder_of_below (mem_preorderAll_of_mem hm)

/-- **Induction over trees**: from the children of a node to the node. -/
theorem inductionOn {motive : Node → Prop} (n : Node)
    (step : ∀ n, (∀ m ∈ n.children, motive m) → motive n) : motive n :=
  step n fun m _ ↦ m.inductionOn step
termination_by n
decreasing_by
  have hlt := List.sizeOf_lt_of_mem ‹m ∈ n.children›
  cases n
  simp only [mk.sizeOf_spec] at hlt ⊢
  omega

/-- What lies below a node below another lies below that one. -/
theorem mem_preorder_trans {m k : Node} (hm : m ∈ n.preorder) (hk : k ∈ m.preorder) :
    k ∈ n.preorder := by
  induction n using inductionOn with
  | _ n ih =>
    rcases mem_preorder.1 hm with rfl | hm
    · exact hk
    · obtain ⟨c, hc, hm⟩ := mem_preorderAll.1 hm
      exact mem_preorder_of_below (mem_preorderAll.2 ⟨c, hc, ih c hc hm⟩)

theorem mem_preorderAll_trans {m k : Node} (hm : m ∈ preorderAll ns) (hk : k ∈ m.preorder) :
    k ∈ preorderAll ns := by
  obtain ⟨n, hn, hm⟩ := mem_preorderAll.1 hm
  exact mem_preorderAll.2 ⟨n, hn, mem_preorder_trans hm hk⟩

theorem mem_preorderAll_of_below {m k : Node} (hm : m ∈ n.preorder)
    (hk : k ∈ preorderAll m.children) : k ∈ preorderAll n.children := by
  rcases mem_preorder.1 hm with rfl | hm
  · exact hk
  · exact mem_preorderAll_trans hm (mem_preorder_of_below hk)

theorem mem_preorder_of_child {m k : Node} (hm : m ∈ n.preorder) (hk : k ∈ m.children) :
    k ∈ n.preorder := mem_preorder_trans hm (mem_preorder_of_mem_children hk)

/-- Whatever lies below a placed node lies **inside** it, in its place. -/
theorem Placed.of_mem_preorder {m : Node} (h : n.Placed cs) (hm : m ∈ n.preorder) :
    n.start ≤ m.start ∧ m.Placed cs ∧ m.stop ≤ n.stop := by
  induction n using inductionOn with
  | _ n ih =>
    rcases mem_preorder.1 hm with rfl | hm
    · exact ⟨Nat.le_refl _, h, Nat.le_refl _⟩
    · obtain ⟨c, hc, hm⟩ := mem_preorderAll.1 hm
      obtain ⟨hstart, hplaced, hstop⟩ := (placed_iff.1 h).2.2.of_mem hc
      obtain ⟨hstart', hplaced', hstop'⟩ := ih c hc hplaced hm
      exact ⟨Nat.le_trans hstart hstart', hplaced', Nat.le_trans hstop' hstop⟩

theorem PlacedIn.of_mem_preorderAll {m : Node} (h : PlacedIn cs a b ns)
    (hm : m ∈ preorderAll ns) : a ≤ m.start ∧ m.Placed cs ∧ m.stop ≤ b := by
  obtain ⟨n, hn, hm⟩ := mem_preorderAll.1 hm
  obtain ⟨hstart, hplaced, hstop⟩ := h.of_mem hn
  obtain ⟨hstart', hplaced', hstop'⟩ := hplaced.of_mem_preorder hm
  exact ⟨Nat.le_trans hstart hstart', hplaced', Nat.le_trans hstop' hstop⟩

end Node

end ScriptTree
