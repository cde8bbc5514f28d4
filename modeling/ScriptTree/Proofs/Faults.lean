import Mathlib.Data.List.Flatten
import ScriptTree.Proofs.Placement
import ScriptTree.Tree.Fault

/-!
# The first fault

A tree is searched for its **first fault** along a stack of nodes, and only what is marked as
holding a fault is put on the stack. Where the marks are right nothing is lost by this: what is left
out holds no fault, and the rest keeps its order. So the search finds what going through all nodes
in the order of the text would find, and it never runs out of nodes once it has been started.

## Main results

* `Node.firstFault?_eq_find?`, `Node.hasFault_iff`: faults in the order of the text.
* `Node.firstFault?_exactly`: the first fault, and how the search finds it.
-/

namespace ScriptTree.Node

open List

variable {n : Node} {ns : List Node} {marked : Node → Bool}

mutual

/-- The first fault comes **before all others** in the order of the text. -/
theorem firstFault?_eq_find? : ∀ n : Node, n.firstFault? = n.preorder.find? isFault
  | ⟨kind, named, missing, role, start, stop, children⟩ => by
    rw [firstFault?, preorder, find?_cons, firstFaultIn?_eq_find?]
    cases hfault : kind == errorKind || missing <;> simp [isFault, hfault]

theorem firstFaultIn?_eq_find? :
    ∀ ns : List Node, firstFaultIn? ns = (preorderAll ns).find? isFault
  | [] => rfl
  | n :: ns => by
    rw [firstFaultIn?, preorderAll, find?_append, firstFault?_eq_find?, firstFaultIn?_eq_find?]

end

mutual

theorem hasFault_eq_any : ∀ n : Node, n.hasFault = n.preorder.any isFault
  | ⟨kind, named, missing, role, start, stop, children⟩ => by
    rw [hasFault, preorder, any_cons, anyFault_eq_any]
    rfl

theorem anyFault_eq_any : ∀ ns : List Node, anyFault ns = (preorderAll ns).any isFault
  | [] => rfl
  | n :: ns => by rw [anyFault, preorderAll, any_append, hasFault_eq_any, anyFault_eq_any]

end

/-- A node **holds** a fault if there is one at or below it. -/
theorem hasFault_iff : n.hasFault = true ↔ ∃ m ∈ n.preorder, m.isFault = true := by
  rw [hasFault_eq_any, any_eq_true]

theorem firstFault?_eq_none_iff : n.firstFault? = none ↔ n.hasFault = false := by
  rw [firstFault?_eq_find?, hasFault_eq_any, find?_eq_none, any_eq_false]

/-! ### Searching -/

theorem firstFault?_eq (n : Node) :
    n.firstFault? = if n.isFault then some n else firstFaultIn? n.children := by
  cases n
  rfl

theorem firstFaultIn?_append (ns ms : List Node) :
    firstFaultIn? (ns ++ ms) = (firstFaultIn? ns).or (firstFaultIn? ms) := by
  induction ns with
  | nil => rfl
  | cons n ns ih => rw [cons_append, firstFaultIn?, firstFaultIn?, ih, Option.or_assoc]

/-- What is not marked can be **left out**. -/
theorem firstFaultIn?_filter (h : ∀ n ∈ ns, marked n = n.hasFault) :
    firstFaultIn? (ns.filter marked) = firstFaultIn? ns := by
  induction ns with
  | nil => rfl
  | cons n ns ih =>
    have hns := ih fun m hm ↦ h m (mem_cons_of_mem _ hm)
    cases hn : marked n with
    | true => rw [filter_cons_of_pos hn, firstFaultIn?, firstFaultIn?, hns]
    | false =>
      have hnone : n.firstFault? = none := firstFault?_eq_none_iff.2 (h n mem_cons_self ▸ hn)
      rw [filter_cons_of_neg (by simp [hn]), firstFaultIn?, hnone, Option.none_or, hns]

/-- The stack after a node that is no fault: its marked children come **first**. -/
def push (marked : Node → Bool) (n : Node) (rest : List Node) : List Node :=
  n.children.filter marked ++ rest

/-- Nothing is put on a stack that did not lie below it, and the node itself is **gone**. -/
theorem preorderAll_push (marked : Node → Bool) (n : Node) (rest : List Node) :
    n :: preorderAll (push marked n rest) <+ preorderAll (n :: rest) := by
  rw [preorderAll, preorder_eq, push, preorderAll_eq, flatMap_append, preorderAll_eq rest,
    preorderAll_eq n.children]
  exact ((filter_sublist.flatMap _).append_right _).cons_cons n

/-- The **search** for a fault along a stack. -/
def search (marked : Node → Bool) : List Node → Option Node
  | [] => none
  | n :: rest => if n.isFault then some n else search marked (push marked n rest)
termination_by stack => (preorderAll stack).length
decreasing_by exact (preorderAll_push marked n rest).length_le

/-- A search by right marks finds the **first fault** at or below the stack. -/
theorem search_eq (h : ∀ n ∈ preorderAll ns, marked n = n.hasFault) :
    search marked ns = firstFaultIn? ns := by
  fun_induction search marked ns with
  | case1 => rfl
  | case2 n rest hfault =>
    rw [firstFaultIn?, firstFault?_eq, if_pos hfault]
    rfl
  | case3 n rest hfault ih =>
    have hstack := (preorderAll_push marked n rest).subset
    have hchildren : ∀ m ∈ n.children, marked m = m.hasFault := fun m hm ↦
      h m (mem_append_left _ (mem_preorder_of_mem_children hm))
    rw [ih fun m hm ↦ h m (hstack (mem_cons_of_mem _ hm)), push, firstFaultIn?_append,
      firstFaultIn?_filter hchildren, firstFaultIn?, firstFault?_eq, if_neg hfault]

/-- **The first fault.** There is none exactly if no node is a fault, and otherwise it is the first
in the order of the text. A search by right marks finds it: it is started exactly if there is a
fault, and then it ends at one. -/
theorem firstFault?_exactly (root : Node) {marked : Node → Bool}
    (hmarked : ∀ n ∈ root.preorder, marked n = true ↔ ∃ m ∈ n.preorder, m.isFault = true) :
    (root.firstFault? = none ↔ ∀ m ∈ root.preorder, m.isFault = false) ∧
    (∀ m, root.firstFault? = some m ↔ m.isFault = true ∧
      ∃ before after, root.preorder = before ++ m :: after ∧ ∀ k ∈ before, k.isFault = false) ∧
    (if marked root then search marked [root] else none) = root.firstFault? ∧
    (marked root = true → ∃ m, search marked [root] = some m) := by
  have hmarks : ∀ n ∈ root.preorder, marked n = n.hasFault := fun n hn ↦
    Bool.eq_iff_iff.2 ((hmarked n hn).trans hasFault_iff.symm)
  have hroot := hmarks root root.mem_preorder_self
  have hsearch : search marked [root] = root.firstFault? := by
    rw [search_eq (by simpa [preorderAll] using hmarks), firstFaultIn?, firstFaultIn?,
      Option.or_none]
  refine ⟨by simp [firstFault?_eq_find?], fun m ↦ ?_, ?_, fun hstart ↦ ?_⟩
  · simp [firstFault?_eq_find?, find?_eq_some_iff_append]
  · rw [hsearch, hroot]
    split
    · rfl
    · next hnone => exact (firstFault?_eq_none_iff.2 (by simpa using hnone)).symm
  · rw [hsearch]
    refine Option.ne_none_iff_exists'.1 fun hnone ↦ ?_
    rw [hroot, firstFault?_eq_none_iff.1 hnone] at hstart
    exact Bool.false_ne_true hstart

/-- A well-formed block, and a call with a missing bracket at the end and unreadable text in it. -/
def faultyTree : Node :=
  ⟨"program", true, false, none, 0, 9,
    [⟨"block", true, false, none, 0, 2, [⟨"name", true, false, none, 0, 1, []⟩]⟩,
      ⟨"call", true, false, none, 2, 9,
        [⟨"arguments", true, false, none, 3, 8, [⟨errorKind, true, false, none, 4, 6, []⟩]⟩,
          ⟨")", false, true, none, 9, 9, []⟩]⟩]⟩

/-- The unreadable text comes **first**, although it lies deeper. -/
theorem firstFault?_faultyTree :
    (faultyTree.preorder.map (·.isFault) = [false, false, false, false, false, true, true]) ∧
    search hasFault [faultyTree] = some ⟨errorKind, true, false, none, 4, 6, []⟩ := by
  obtain ⟨-, -, hsearch, -⟩ := firstFault?_exactly faultyTree fun _ _ ↦ hasFault_iff
  exact ⟨by decide, hsearch⟩

end ScriptTree.Node
