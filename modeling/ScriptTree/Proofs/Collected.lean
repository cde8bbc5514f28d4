import ScriptTree.Proofs.TypedParts

/-!
# The walk over a typed script

The walk visits the nodes that it reaches in order, and what it has collected after some of them
depends on these alone: the edits replace typed parts of theirs, the elements are noted with the
latest first, and so on.

## Main results

* `Transform.Collected.visit`: one more node is visited.
* `Transform.collected_collect`: what is collected at all nodes that are reached.
-/

namespace ScriptTree.Transform

open List Option Node
open Utf8 (IsBoundary size)
open Node (preorderAll)

variable {tree : SourceTree} {names : MarkupNames} {path : Option Path} {d : Dialect}
  {cs : List Char} {n m : Node} {w w' : Work} {edits : EditSet} {done : List Node}

/-! ### Edits for some nodes -/

/-- Edits **for some nodes**: they replace typed parts of them, and put in what they call for. -/
structure EditsFor (tree : SourceTree) (done : List Node) (edits : EditSet) : Prop where
  keys : ∀ r ∈ edits.replacements, ∃ n ∈ done, ∃ m ∈ typedParts n, r.1 = m.key
  insertions : edits.insertions = done.filterMap (propertyInsertion tree)
  statements : edits.statementInsertions = []

/-- A typed part of a node is the node or one of its **children**. -/
theorem eq_or_mem_children_of_typedParts (h : m ∈ typedParts n) : m = n ∨ m ∈ n.children := by
  have hnil (h : m ∈ ([] : List Node)) : m = n ∨ m ∈ n.children := by simp at h
  have hself (h : m ∈ [n]) : m = n ∨ m ∈ n.children := .inl (mem_singleton.1 h)
  have htokens {kinds : List String} (h : m ∈ tokens kinds n) : m = n ∨ m ∈ n.children :=
    .inr (mem_of_mem_filter h)
  have hlast (h : m ∈ (n.children.getLast?.filter (·.kind == "!")).toList) :
      m = n ∨ m ∈ n.children :=
    .inr (mem_of_getLast? (filter_eq_some_iff.1 (mem_toList.1 h)).1)
  have hpart {kind : String} {p : Node → Bool} (h : m ∈ ((n.part? kind).filter p).toList) :
      m = n ∨ m ∈ n.children := by
    have h := (filter_eq_some_iff.1 (mem_toList.1 h)).1
    exact .inr (mem_of_mem_filter (mem_of_find?_eq_some h))
  have hassigned (h : m ∈ (assignedExport? n).toList) : m = n ∨ m ∈ n.children := by
    have h := mem_toList.1 h
    unfold assignedExport? at h
    split at h
    · next first second rest hchildren =>
      split at h
      · cases h
        exact .inr (by rw [hchildren]; exact mem_cons_self)
      · cases h
    · cases h
  rcases mem_append.1 h with h | h
  · unfold erasedParts at h
    split at h
    · exact hself h
    · split at h
      case h_9 => exact .inr (mem_of_mem_drop h)
      case h_10 => exact .inr (mem_of_mem_drop h)
      case h_11 => exact hlast h
      all_goals
        first
        | exact htokens h
        | exact hnil h
        | (split at h <;> first | exact hself h | exact htokens h | exact hnil h)
  · unfold rewrittenParts at h
    split at h
    case h_1 =>
      split at h
      · exact hnil h
      · exact (mem_append.1 h).elim hassigned hpart
    case h_2 =>
      split at h
      · exact hnil h
      · split at h
        · exact hself h
        · exact hpart h
    all_goals first | exact hself h | exact hnil h

theorem mem_preorder_of_typedParts (h : m ∈ typedParts n) : m ∈ n.preorder := by
  rcases eq_or_mem_children_of_typedParts h with rfl | h
  · exact m.mem_preorder_self
  · exact mem_preorder_of_mem_children h

/-- What is put in for a constructor stands in its **body**. -/
theorem exists_of_propertyInsertion {i : Int × Text} (h : propertyInsertion tree n = some i) :
    ∃ body, n.child? .body = some body ∧ i.1 = propertyOffset body := by
  unfold propertyInsertion at h
  split at h
  · split at h
    · next hbody =>
      split at h
      · split at h
        · cases h
          exact ⟨_, hbody, rfl⟩
        · cases h
      · cases h
    · cases h
  · cases h

theorem bounds_of_propertyOffset {body : Node} (hplaced : body.Placed cs) :
    IsBoundary cs (propertyOffset body) ∧ body.start ≤ propertyOffset body ∧
      propertyOffset body ≤ body.stop := by
  have hchild {k : Node} (hk : k ∈ body.children) :
      IsBoundary cs k.stop ∧ body.start ≤ k.stop ∧ k.stop ≤ body.stop := by
    obtain ⟨hstart, hinside, hstop⟩ :=
      hplaced.of_mem_preorder (mem_preorder_of_mem_children hk)
    exact ⟨(placed_iff.1 hinside).2.1, hstart.trans hinside.start_le_stop, hstop⟩
  unfold propertyOffset
  split
  · next statement hstatement =>
    exact hchild (mem_of_mem_filter (mem_of_mem_filter
      (mem_of_find?_eq_some hstatement)))
  · cases hhead : body.children.head? with
    | none => exact ⟨(placed_iff.1 hplaced).1, Nat.le_refl _, hplaced.start_le_stop⟩
    | some k => exact hchild (mem_of_mem_head? hhead)

/-- A constructor assigns its properties **inside itself**, between characters. -/
theorem bounds_of_propertyInsertion {i : Int × Text} (hplaced : n.Placed cs)
    (h : propertyInsertion tree n = some i) :
    ∃ offset : Nat, i.1 = offset ∧ IsBoundary cs offset ∧ n.start ≤ offset ∧ offset ≤ n.stop := by
  obtain ⟨body, hbody, hoffset⟩ := exists_of_propertyInsertion h
  obtain ⟨hstart, hinside, hstop⟩ := hplaced.of_mem_preorder
    (mem_preorder_of_mem_children (mem_of_find?_eq_some hbody))
  obtain ⟨hboundary, hlow, hhigh⟩ := bounds_of_propertyOffset hinside
  exact ⟨_, hoffset, hboundary, hstart.trans hlow, hhigh.trans hstop⟩

/-- Edits of nodes below the root **fit** the tree. -/
theorem fits_of_keys (h : tree.Over d cs) (hdone : ∀ n ∈ done, n ∈ tree.root.preorder)
    (hkeys : ∀ r ∈ edits.replacements, ∃ m ∈ preorderAll tree.root.children, r.1 = m.key)
    (hinsertions : edits.insertions = done.filterMap (propertyInsertion tree))
    (hstatements : edits.statementInsertions = []) : edits.Fits tree cs := by
  refine ⟨fun i hi ↦ ?_, by simp [hstatements], fun r hr ↦ ?_, fun m hm hreplaced ↦ ?_⟩
  · rw [hinsertions] at hi
    obtain ⟨n, hn, hi⟩ := mem_filterMap.1 hi
    obtain ⟨offset, hoffset, hboundary, -⟩ :=
      bounds_of_propertyInsertion (h.placed.of_mem_preorder (hdone n hn)).2.1 hi
    exact ⟨offset, hoffset, hboundary⟩
  · obtain ⟨m, hm, hkey⟩ := hkeys r hr
    rw [hkey]
    have hplaced := (h.placed.of_mem_preorder (mem_preorder_of_below hm)).2.1
    exact (placed_iff.1 hplaced).1
  · obtain ⟨text, htext⟩ := isSome_iff_exists.1 hreplaced
    obtain ⟨k, hk, hkey⟩ := hkeys _ (mem_of_lookup htext)
    have hwide := h.wide k hk
    simp only [Node.key, NodeKey.mk.injEq] at hkey
    omega

theorem mem_preorderAll_mono {ns ms : List Node} (h : ns ⊆ ms) (hm : m ∈ preorderAll ns) :
    m ∈ preorderAll ms := by
  obtain ⟨k, hk, hm⟩ := mem_preorderAll.1 hm
  exact mem_preorderAll.2 ⟨k, h hk, hm⟩

/-- What is reached lies **below the root**. -/
theorem mem_preorderAll_of_reached (hn : n ∈ reached tree) :
    n ∈ preorderAll tree.root.children :=
  mem_preorderAll_mono (fun _ hk ↦ mem_of_mem_filter (mem_of_mem_filter hk))
    (mem_preorderAll_of_reachedAll hn)

theorem mem_preorder_of_reached (hn : n ∈ reached tree) : n ∈ tree.root.preorder :=
  mem_preorder_of_below (mem_preorderAll_of_reached hn)

theorem EditsFor.fits (h : EditsFor tree done edits) (hover : tree.Over d cs)
    (hdone : done ⊆ reached tree) : edits.Fits tree cs := by
  refine fits_of_keys hover (fun n hn ↦ mem_preorder_of_reached (hdone hn)) (fun r hr ↦ ?_)
    h.insertions h.statements
  obtain ⟨n, hn, m, hm, hkey⟩ := h.keys r hr
  exact ⟨m, mem_preorderAll_trans (mem_preorderAll_of_reached (hdone hn))
    (mem_preorder_of_typedParts hm), hkey⟩

/-! ### The walk -/

/-- The edits and notes **collected** at some nodes. Each replacement stems from one of them, and
was written with the edits for the nodes before it. -/
structure Collected (tree : SourceTree) (names : MarkupNames) (done : List Node) (w : Work) : Prop
    where
  elements : w.elements = (done.filter (elementKinds.contains ·.kind)).reverse
  imports : w.imports = done.filter isPutOff
  insertions : w.edits.insertions = done.filterMap (propertyInsertion tree)
  statements : w.edits.statementInsertions = []
  replaced : ∀ n ∈ done, isDelayed n = false → ∀ m ∈ typedParts n, (w.edits.replacement? m).isSome
  texts : ∀ r ∈ w.edits.replacements, ∃ before n after, done = before ++ n :: after ∧
    isDelayed n = false ∧ ∃ m ∈ typedParts n, r.1 = m.key ∧
      ∃ edits, EditsFor tree before edits ∧ Rewrites tree names edits n m r.2

theorem Collected.editsFor (h : Collected tree names done w) : EditsFor tree done w.edits := by
  refine ⟨fun r hr ↦ ?_, h.insertions, h.statements⟩
  obtain ⟨before, n, after, rfl, -, m, hm, hkey, -⟩ := h.texts r hr
  exact ⟨n, by simp, m, hm, hkey⟩

theorem collected_nil (tree : SourceTree) (names : MarkupNames) : Collected tree names [] {} :=
  ⟨rfl, rfl, rfl, rfl, by simp, by simp⟩

/-- **One more node** is visited. -/
theorem Collected.visit {next : Visit} (h : Collected tree names done w)
    (hvisit : Visits tree names n w w' next) : Collected tree names (done ++ [n]) w' := by
  obtain ⟨changes, hparts, htexts, rfl⟩ := hvisit.changes
  have hchange {m : Node} : m ∈ changes.map (·.1) ↔ isDelayed n = false ∧ m ∈ typedParts n := by
    rw [hparts]
    split <;> simp_all
  refine ⟨?_, ?_, ?_, ?_, fun k hk hdelayed m hm ↦ ?_, fun r hr ↦ ?_⟩
  · simp only [Work.after, h.elements, filter_append, reverse_append]
    cases helement : elementKinds.contains n.kind <;>
      simp only [filter_cons, helement] <;> rfl
  · simp only [Work.after, h.imports]
    cases hputOff : isPutOff n <;> simp [hputOff]
  · simp only [Work.after, EditSet.insertions_replaceAll, h.insertions]
    cases hinsertion : propertyInsertion tree n <;> simp [hinsertion]
  · simp [Work.after, h.statements]
  · refine EditSet.isSome_replacement?_replaceAll ?_
    rcases mem_append.1 hk with hk | hk
    · exact .inr (h.replaced k hk hdelayed m hm)
    · obtain rfl := mem_singleton.1 hk
      obtain ⟨c, hc, rfl⟩ := mem_map.1 (hchange.2 ⟨hdelayed, hm⟩)
      exact .inl ⟨c, hc, rfl⟩
  · rcases EditSet.mem_replacements_replaceAll hr with hr | ⟨c, hc, rfl⟩
    · obtain ⟨before, k, after, rfl, hfound⟩ := h.texts r hr
      exact ⟨before, k, after ++ [n], by simp, hfound⟩
    · obtain ⟨hdelayed, hm⟩ := hchange.1 (mem_map_of_mem hc)
      exact ⟨done, n, [], rfl, hdelayed, c.1, hm, rfl, w.edits, h.editsFor, htexts c hc⟩

/-- The walk **runs along** the nodes that it reaches. -/
theorem collect_eq (tree : SourceTree) (path : Option Path) :
    collect tree path = (reached tree).foldlM (Node.effect fun n w ↦ visit tree path n w) {} := by
  have hpasses : Node.PassesOver isPassedOver fun n w ↦ visit tree path n w :=
    fun n w next w' h ↦ (visits_visit h : Visits tree {} n w w' next).next_eq
  have hwalk := SourceTree.walk_eq_foldlM tree hpasses {}
  simp only [collect, StateT.run, hwalk]
  unfold reached
  generalize (Node.reachedAll isPassedOver tree.statements).foldlM
    (Node.effect fun n w ↦ visit tree path n w) ({} : Work) = result
  cases result <;> rfl

/-- What is collected when **some nodes** have been visited. -/
theorem collected_foldlM {ns : List Node}
    (h : ns.foldlM (Node.effect fun n w ↦ visit tree path n w) {} = .ok w) :
    Collected tree names ns w := by
  refine foldlM_invariant (P := fun done w ↦ Collected tree names done w)
    (fun done n w w' hdone hstep ↦ ?_) ns [] (collected_nil tree names) h
  obtain ⟨⟨next, w''⟩, hvisit, rfl⟩ := map_eq_ok_iff.1 hstep
  exact hdone.visit (visits_visit hvisit)

/-- What is **collected** in the end. -/
theorem collected_collect (h : collect tree path = .ok w) :
    Collected tree names (reached tree) w := by
  rw [collect_eq] at h
  exact collected_foldlM h

end ScriptTree.Transform
