import ScriptTree.Proofs.Surroundings

/-!
# Names in use

The names that a tree **uses** are those that stand in it as names outside imports and outside what
only states types. Markup uses the names that it is compiled with. They are listed here without the
walk that collects them; the walk gives the same names, though in another order and some more than
once.

## Main results

* `Transform.mem_valueNodes_iff`: the nodes outside imports and outside what only states types.
* `Transform.exists_usedNames`: the walk collects the names in use.
-/

namespace ScriptTree

open List Node

namespace Node

variable {hidden : Node → Bool} {m : Node}

mutual

/-- The nodes at and below a node that do **not lie in a hidden one**. -/
def outside (hidden : Node → Bool) : Node → List Node
  | ⟨kind, named, missing, role, start, stop, children⟩ =>
    if hidden ⟨kind, named, missing, role, start, stop, children⟩ then []
    else ⟨kind, named, missing, role, start, stop, children⟩ :: outsideAll hidden children

/-- The nodes at and below some nodes that do not lie in a hidden one. -/
def outsideAll (hidden : Node → Bool) : List Node → List Node
  | [] => []
  | n :: ns => outside hidden n ++ outsideAll hidden ns

end

mutual

theorem outside_eq_filter : ∀ n : Node, n.outside hidden = (n.reached hidden).filter (!hidden ·)
  | ⟨kind, named, missing, role, start, stop, children⟩ => by
    rw [outside, reached, filter_cons]
    cases hidden ⟨kind, named, missing, role, start, stop, children⟩ with
    | true => simp
    | false => simp [outsideAll_eq_filter children]

/-- A walk that passes over hidden nodes reaches **the nodes outside** of them, and hidden ones. -/
theorem outsideAll_eq_filter : ∀ ns : List Node,
    outsideAll hidden ns = (reachedAll hidden ns).filter (!hidden ·)
  | [] => rfl
  | n :: ns => by
    rw [outsideAll, reachedAll, filter_append, outside_eq_filter n, outsideAll_eq_filter ns]

end

theorem mem_preorderAll_of_outsideAll {ns : List Node} (h : m ∈ outsideAll hidden ns) :
    m ∈ preorderAll ns := by
  rw [outsideAll_eq_filter] at h
  exact mem_preorderAll_of_reachedAll (mem_of_mem_filter h)

/-- A node that does not lie outside lies **in a hidden one**. -/
theorem mem_outsideAll_or {ns : List Node} (h : m ∈ preorderAll ns) :
    m ∈ outsideAll hidden ns ∨ ∃ k ∈ preorderAll ns, hidden k = true ∧ m ∈ k.preorder := by
  have hreached : m ∈ reachedAll hidden ns ∨ _ := mem_reachedAll_or h
  rw [outsideAll_eq_filter]
  rcases hreached with hm | ⟨k, hk, hhidden, hm⟩
  · cases hhidden : hidden m with
    | true => exact .inr ⟨m, h, hhidden, m.mem_preorder_self⟩
    | false => exact .inl (mem_filter.2 ⟨hm, by simp [hhidden]⟩)
  · exact .inr ⟨k, mem_preorderAll_of_reachedAll hk, hhidden, mem_preorder_of_below hm⟩

section Placed

variable {cs : List Char} {k : Node}

/-- A node that lies outside lies in **no hidden one**: nodes that cover something are found in one
place only. -/
theorem not_mem_preorder_of_outsideAll {ns : List Node} {a b : Nat} (hplaced : PlacedIn cs a b ns)
    (hwide : ∀ q ∈ preorderAll ns, q.start < q.stop) (hm : m ∈ outsideAll hidden ns)
    (hk : k ∈ preorderAll ns) (hhidden : hidden k = true) : m ∉ k.preorder := by
  intro hmk
  rw [outsideAll_eq_filter, mem_filter] at hm
  obtain ⟨hm, hshown⟩ := hm
  -- The node that is passed over on the way to the hidden one.
  obtain ⟨s, hs, hpassed, hms⟩ :
      ∃ s ∈ reachedAll hidden ns, hidden s = true ∧ m ∈ s.preorder := by
    rcases mem_reachedAll_or hk with hk | ⟨s, hs, hpassed, hk⟩
    · exact ⟨k, hk, hhidden, hmk⟩
    · exact ⟨s, hs, hpassed, mem_preorder_trans (mem_preorder_of_below hk) hmk⟩
  have hwidth := hwide m (mem_preorderAll_of_reachedAll hm)
  have hbounds :=
    (hplaced.of_mem_preorderAll (mem_preorderAll_of_reachedAll hs)).2.1.of_mem_preorder hms
  rcases eq_or_precedes hplaced hm hs with rfl | (h | ⟨-, h⟩) | (h | ⟨h, -⟩)
  · simp [hpassed] at hshown
  · omega
  · have hshort := Transform.length_preorder_lt h
    have hlong := Transform.length_preorder_le_of_mem hms
    omega
  · omega
  · simp [hpassed] at h

end Placed

end Node

namespace Transform

variable {tree : SourceTree} {cs : List Char} {d : Dialect} {n : Node}

/-- Whether no name in a node counts as **used**. -/
def isUnused (n : Node) : Bool := unusedKinds.contains n.kind

/-- Whether a node is a **name** that may stand for a value. -/
def isName (n : Node) : Bool :=
  n.kind == "identifier" || n.kind == "shorthand_property_identifier"

/-- Whether a node is a tag that opens an element. -/
def isTag (n : Node) : Bool :=
  n.kind == "jsx_opening_element" || n.kind == "jsx_self_closing_element"

/-- The nodes of a tree that count: they lie neither in an import nor in what only states types. -/
def valueNodes (tree : SourceTree) : List Node := Node.outsideAll isUnused tree.statements

/-- The nodes that count are those that lie in **no** import and in nothing that only states
types. -/
theorem mem_valueNodes_iff (hover : tree.Over d cs) :
    n ∈ valueNodes tree ↔ n ∈ Node.preorderAll tree.statements ∧
      ∀ k ∈ Node.preorderAll tree.statements, isUnused k = true → n ∉ k.preorder := by
  refine ⟨fun h ↦ ⟨mem_preorderAll_of_outsideAll h, fun k hk hunused ↦
    not_mem_preorder_of_outsideAll (placedIn_statements hover)
      (fun q ↦ start_lt_stop_of_mem_statements hover) h hk hunused⟩, fun ⟨hn, hnone⟩ ↦ ?_⟩
  refine (mem_outsideAll_or hn).resolve_right ?_
  rintro ⟨k, hk, hunused, hnk⟩
  exact hnone k hk hunused hnk

/-- The first names of the factory and of the tag of fragments, which **markup** uses. -/
def markupTexts (tree : SourceTree) (names : MarkupNames) : List Text :=
  if (valueNodes tree).any isTag then [firstName names.factory, firstName names.fragment] else []

/-- The names that a tree **uses**. -/
def usedTexts (tree : SourceTree) (cs : List Char) (names : MarkupNames) : List Text :=
  markupTexts tree names ++ ((valueNodes tree).filter isName).map (ownText cs)

/-- What is seen **at a node**. -/
def NamesSeen.see (cs : List Char) (seen : NamesSeen) (n : Node) : NamesSeen where
  names := if !isUnused n && isName n then ownText cs n :: seen.names else seen.names
  hasMarkup := seen.hasMarkup || !isUnused n && isTag n

theorem seeName_eq (tree : SourceTree) (n : Node) (seen : NamesSeen) :
    seeName tree n seen =
      if isUnused n then .ok (.skip, seen)
      else if isName n then
        (tree.nodeText n).map fun text ↦ (.continue, { seen with names := text :: seen.names })
      else if isTag n then .ok (.continue, { seen with hasMarkup := true })
      else .ok (.continue, seen) := by
  unfold seeName isUnused isName isTag
  split
  · rfl
  · split
    · cases tree.nodeText n <;> rfl
    · split <;> rfl

theorem passesOver_seeName (tree : SourceTree) : Node.PassesOver isUnused (seeName tree) := by
  intro n seen next seen' h
  rw [seeName_eq] at h
  split at h
  · next hunused =>
    rw [if_pos hunused, (Prod.mk.inj (Except.ok.inj h)).1]
  · next hunused =>
    rw [if_neg hunused]
    split at h
    · obtain ⟨text, -, heq⟩ := map_eq_ok_iff.1 h
      exact (Prod.mk.inj heq).1.symm
    · split at h <;> exact (Prod.mk.inj (Except.ok.inj h)).1.symm

theorem effect_seeName_eq (hover : tree.Over d cs) (hn : n ∈ tree.root.preorder)
    (seen : NamesSeen) : Node.effect (seeName tree) seen n = .ok (seen.see cs n) := by
  have hdisjoint : isName n = true → isTag n = false := by
    intro hname
    simp only [isName, Bool.or_eq_true, beq_iff_eq] at hname
    rcases hname with hkind | hkind <;> (rw [isTag, hkind]; rfl)
  rw [Node.effect, seeName_eq, nodeText_eq_ownText hover hn, NamesSeen.see]
  cases isUnused n with
  | true => simp [Except.map]
  | false =>
    cases hname : isName n with
    | true => simp [Except.map, hdisjoint hname]
    | false => cases isTag n <;> simp [Except.map]

theorem mem_names_foldl_see {ns : List Node} {t : Text} {seen : NamesSeen} :
    t ∈ (ns.foldl (NamesSeen.see cs) seen).names ↔
      t ∈ ((ns.filter (!isUnused ·)).filter isName).map (ownText cs) ∨ t ∈ seen.names := by
  induction ns generalizing seen with
  | nil => simp
  | cons n ns ih =>
    rw [foldl_cons, ih, NamesSeen.see]
    cases hunused : isUnused n with
    | true => simp [hunused]
    | false =>
      cases hname : isName n with
      | true =>
        have hcons : ((n :: ns).filter (!isUnused ·)).filter isName
            = n :: (ns.filter (!isUnused ·)).filter isName := by simp [hunused, hname]
        rw [hcons, map_cons]
        simp only [Bool.not_false, Bool.and_self, if_true, mem_cons]
        tauto
      | false => simp [hname]

theorem hasMarkup_foldl_see {ns : List Node} {seen : NamesSeen} :
    (ns.foldl (NamesSeen.see cs) seen).hasMarkup
      = (seen.hasMarkup || (ns.filter (!isUnused ·)).any isTag) := by
  induction ns generalizing seen with
  | nil => simp
  | cons n ns ih =>
    rw [foldl_cons, ih, NamesSeen.see, filter_cons]
    cases isUnused n <;> simp [Bool.or_assoc]

/-- The walk collects **the names in use**. -/
theorem exists_usedNames (hover : tree.Over d cs) (names : MarkupNames) :
    ∃ used, usedNames tree names = .ok used ∧ ∀ t, t ∈ used ↔ t ∈ usedTexts tree cs names := by
  have hreached (n) (hn : n ∈ Node.reachedAll isUnused tree.statements) :
      n ∈ tree.root.preorder :=
    mem_preorder_of_below (mem_preorderAll_mono
      (fun _ hk ↦ mem_of_mem_filter (mem_of_mem_filter hk))
      (mem_preorderAll_of_reachedAll hn))
  have hwalk := SourceTree.walk_eq_foldlM tree (passesOver_seeName tree) {}
  rw [foldlM_eq_ok fun seen n hn ↦ effect_seeName_eq hover (hreached n hn) seen] at hwalk
  have hvalues : valueNodes tree = _ := outsideAll_eq_filter tree.statements
  refine ⟨_, by rw [usedNames, StateT.run, hwalk]; rfl, fun t ↦ ?_⟩
  rw [hasMarkup_foldl_see, usedTexts, markupTexts, hvalues, Bool.false_or]
  split
  · simp only [mem_cons, mem_names_foldl_see, mem_append, not_mem_nil]
    tauto
  · rw [mem_names_foldl_see]
    simp

end Transform

end ScriptTree
