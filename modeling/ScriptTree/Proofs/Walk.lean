import ScriptTree.Proofs.Outcome
import ScriptTree.Proofs.Placement
import ScriptTree.Tree.Walk

/-!
# Walks over the nodes they reach

A visitor that passes over the same nodes whatever its state is makes a walk a **fold**: the walk
reaches a fixed list of nodes, each before those below it, and the visitor is run along that list.
In a placed tree two nodes of the list lie apart, or the later one lies below the earlier one, which
is then not passed over.

## Main results

* `SourceTree.walk_eq_foldlM`: a walk is a fold over the nodes that it reaches.
* `Node.mem_reachedAll_or`: what is not reached lies below a node that is passed over.
* `Node.mem_reachedAll_of_mem_children`: what is reached from a node that is reached.
* `Node.pairwise_reachedAll`: how the nodes that are reached lie to each other.
-/

namespace ScriptTree

open List

namespace Node

variable {passed : Node → Bool} {m n : Node} {ns : List Node}

mutual

/-- The nodes that a walk **reaches** at and below a node: none below one that is `passed` over. -/
def reached (passed : Node → Bool) : Node → List Node
  | ⟨kind, named, missing, role, start, stop, children⟩ =>
    ⟨kind, named, missing, role, start, stop, children⟩ ::
      if passed ⟨kind, named, missing, role, start, stop, children⟩ then []
      else reachedAll passed children

/-- The nodes that a walk reaches at and below some nodes. -/
def reachedAll (passed : Node → Bool) : List Node → List Node
  | [] => []
  | n :: ns => reached passed n ++ reachedAll passed ns

end

theorem reached_eq (passed : Node → Bool) (n : Node) :
    n.reached passed = n :: if passed n then [] else reachedAll passed n.children := by
  cases n
  rfl

theorem mem_reachedAll : m ∈ reachedAll passed ns ↔ ∃ n ∈ ns, m ∈ n.reached passed := by
  induction ns with
  | nil => simp [reachedAll]
  | cons n ns ih => simp [reachedAll, ih]

theorem mem_reached : m ∈ n.reached passed ↔
    m = n ∨ passed n = false ∧ m ∈ reachedAll passed n.children := by
  rw [reached_eq]
  cases passed n <;> simp

theorem mem_preorder_of_reached (hm : m ∈ n.reached passed) : m ∈ n.preorder := by
  induction n using inductionOn with
  | _ n ih =>
    rcases mem_reached.1 hm with rfl | ⟨-, hm⟩
    · exact mem_preorder_self _
    · obtain ⟨c, hc, hm⟩ := mem_reachedAll.1 hm
      exact mem_preorder_of_below (mem_preorderAll.2 ⟨c, hc, ih c hc hm⟩)

theorem mem_preorderAll_of_reachedAll (hm : m ∈ reachedAll passed ns) : m ∈ preorderAll ns := by
  obtain ⟨n, hn, hm⟩ := mem_reachedAll.1 hm
  exact mem_preorderAll.2 ⟨n, hn, mem_preorder_of_reached hm⟩

theorem mem_reached_or (hm : m ∈ n.preorder) : m ∈ n.reached passed ∨
    ∃ s ∈ n.reached passed, passed s = true ∧ m ∈ preorderAll s.children := by
  induction n using inductionOn with
  | _ n ih =>
    rcases mem_preorder.1 hm with rfl | hm
    · exact .inl (mem_reached.2 (.inl rfl))
    · cases hpassed : passed n with
      | true => exact .inr ⟨n, mem_reached.2 (.inl rfl), hpassed, hm⟩
      | false =>
        obtain ⟨c, hc, hm⟩ := mem_preorderAll.1 hm
        have hbelow {k : Node} (hk : k ∈ c.reached passed) : k ∈ n.reached passed :=
          mem_reached.2 (.inr ⟨hpassed, mem_reachedAll.2 ⟨c, hc, hk⟩⟩)
        rcases ih c hc hm with hm | ⟨s, hs, h⟩
        · exact .inl (hbelow hm)
        · exact .inr ⟨s, hbelow hs, h⟩

/-- What is not reached lies **below a node that is passed over**. -/
theorem mem_reachedAll_or (hm : m ∈ preorderAll ns) : m ∈ reachedAll passed ns ∨
    ∃ s ∈ reachedAll passed ns, passed s = true ∧ m ∈ preorderAll s.children := by
  obtain ⟨n, hn, hm⟩ := mem_preorderAll.1 hm
  rcases mem_reached_or hm with hm | ⟨s, hs, h⟩
  · exact .inl (mem_reachedAll.2 ⟨n, hn, hm⟩)
  · exact .inr ⟨s, mem_reachedAll.2 ⟨n, hn, hs⟩, h⟩

/-- What is reached from a node that is reached **is reached**. -/
theorem mem_reached_trans {k : Node} (hm : m ∈ n.reached passed) (hk : k ∈ m.reached passed) :
    k ∈ n.reached passed := by
  induction n using inductionOn with
  | _ n ih =>
    rcases mem_reached.1 hm with rfl | ⟨hpassed, hm⟩
    · exact hk
    · obtain ⟨c, hc, hm⟩ := mem_reachedAll.1 hm
      exact mem_reached.2 (.inr ⟨hpassed, mem_reachedAll.2 ⟨c, hc, ih c hc hm⟩⟩)

theorem mem_reachedAll_of_mem (hn : n ∈ ns) : n ∈ reachedAll passed ns :=
  mem_reachedAll.2 ⟨n, hn, mem_reached.2 (.inl rfl)⟩

/-- The **children** of a node that is reached are reached, unless it is passed over. -/
theorem mem_reachedAll_of_mem_children (hn : n ∈ reachedAll passed ns) (hpassed : passed n = false)
    (hm : m ∈ n.children) : m ∈ reachedAll passed ns := by
  obtain ⟨k, hk, hn⟩ := mem_reachedAll.1 hn
  have hm : m ∈ n.reached passed := mem_reached.2 (.inr ⟨hpassed, mem_reachedAll_of_mem hm⟩)
  exact mem_reachedAll.2 ⟨k, hk, mem_reached_trans hn hm⟩

/-! ### Walks as folds -/

section Walk

variable {ε σ : Type} {visit : Node → StateT σ (Except ε) Visit}

/-- What a visitor does to its state at a node. -/
def effect (visit : Node → StateT σ (Except ε) Visit) (s : σ) (n : Node) : Except ε σ :=
  (visit n s).map (·.2)

/-- A visitor that **passes over** a node or goes on below it, whatever its state is. -/
def PassesOver (passed : Node → Bool) (visit : Node → StateT σ (Except ε) Visit) : Prop :=
  ∀ n s next s', visit n s = .ok (next, s') → next = if passed n then .skip else .continue

mutual

theorem walk_eq_foldlM (h : PassesOver passed visit) : ∀ (n : Node) (s : σ),
    n.walk visit s = ((n.reached passed).foldlM (effect visit) s).map fun s ↦ (true, s)
  | ⟨kind, named, missing, role, start, stop, children⟩, s => by
    rw [walk, reached_eq, foldlM_cons]
    simp only [bind, StateT.bind, effect]
    cases hvisit : visit ⟨kind, named, missing, role, start, stop, children⟩ s with
    | error e => rfl
    | ok x =>
      obtain ⟨next, s'⟩ := x
      obtain rfl := h _ _ _ _ hvisit
      simp only [Except.bind, Except.map]
      cases passed ⟨kind, named, missing, role, start, stop, children⟩ with
      | true => rfl
      | false => exact walkAll_eq_foldlM h children s'

theorem walkAll_eq_foldlM (h : PassesOver passed visit) : ∀ (ns : List Node) (s : σ),
    walkAll visit ns s = ((reachedAll passed ns).foldlM (effect visit) s).map fun s ↦ (true, s)
  | [], s => rfl
  | n :: ns, s => by
    rw [walkAll, reachedAll, foldlM_append]
    simp only [bind, StateT.bind, walk_eq_foldlM h n s]
    cases (n.reached passed).foldlM (effect visit) s with
    | error e => rfl
    | ok s' => exact walkAll_eq_foldlM h ns s'

end

end Walk

/-! ### How reached nodes lie to each other -/

/-- How a node that is reached lies to one that is reached **later**: it ends before the later one,
or has it below itself and is not passed over. -/
def Precedes (passed : Node → Bool) (n m : Node) : Prop :=
  n.stop ≤ m.start ∨ passed n = false ∧ m ∈ preorderAll n.children

variable {cs : List Char}

mutual

theorem pairwise_reached : ∀ {n : Node}, n.Placed cs → (n.reached passed).Pairwise (Precedes passed)
  | ⟨kind, named, missing, role, start, stop, children⟩, hplaced => by
    rw [reached_eq]
    split
    · exact pairwise_singleton _ _
    · next hpassed =>
      refine pairwise_cons.2 ⟨fun m hm ↦ .inr ⟨by simpa using hpassed, ?_⟩,
        pairwise_reachedAll hplaced.2.2⟩
      exact mem_preorderAll_of_reachedAll hm

/-- Nodes that are reached **precede** those that are reached later. -/
theorem pairwise_reachedAll : ∀ {ns : List Node} {a b : Nat}, PlacedIn cs a b ns →
    (reachedAll passed ns).Pairwise (Precedes passed)
  | [], _, _, _ => List.Pairwise.nil
  | n :: ns, a, b, hplaced => by
    refine pairwise_append.2 ⟨pairwise_reached hplaced.2.1, pairwise_reachedAll hplaced.2.2,
      fun m hm k hk ↦ .inl ?_⟩
    have hm := hplaced.2.1.of_mem_preorder (mem_preorder_of_reached hm)
    have hk := hplaced.2.2.of_mem_preorderAll (mem_preorderAll_of_reachedAll hk)
    exact Nat.le_trans hm.2.2 hk.1

end

theorem eq_or_precedes {k : Node} {a b : Nat} (hplaced : PlacedIn cs a b ns)
    (hm : m ∈ reachedAll passed ns) (hk : k ∈ reachedAll passed ns) :
    m = k ∨ Precedes passed m k ∨ Precedes passed k m := by
  have hpairs : (reachedAll passed ns).Pairwise (Precedes passed) := pairwise_reachedAll hplaced
  refine List.Pairwise.forall_of_forall_of_flip
    (R := fun m k ↦ m = k ∨ Precedes passed m k ∨ Precedes passed k m) ?_ ?_ ?_ hm hk
  · exact fun _ _ ↦ .inl rfl
  · exact hpairs.imp fun h ↦ .inr (.inl h)
  · exact hpairs.imp fun h ↦ .inr (.inr h)

end Node

/-! ### Trees -/

namespace SourceTree

variable {ε σ : Type} {passed : Node → Bool}

/-- A **walk** through a tree runs the visitor along the nodes that it reaches. -/
theorem walk_eq_foldlM (tree : SourceTree) {visit : Node → StateT σ (Except ε) Visit}
    (h : Node.PassesOver passed visit) (s : σ) :
    tree.walk (fun _ ↦ visit) s
      = ((Node.reachedAll passed tree.statements).foldlM (Node.effect visit) s).map
          fun s ↦ (true, s) := by
  have hrun (ns : List Node) (index : Nat) :
      walkStatements (fun _ ↦ visit) index ns = Node.walkAll visit ns := by
    induction ns generalizing index with
    | nil => rfl
    | cons n ns ih => rw [walkStatements, Node.walkAll, ih]
  rw [walk, hrun]
  exact Node.walkAll_eq_foldlM h tree.statements s

end SourceTree

end ScriptTree
