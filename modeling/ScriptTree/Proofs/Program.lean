import ScriptTree.Proofs.Reading

/-!
# Programs are in their place

Every goal is read tidily, by induction on the depth of the nesting, so the statements of a program
are laid out over its text. With the comments put in, the tree of **any** text is in its place, each
of its nodes is known by its kind, and each node below the program has a width.

## Main results

* `placed_readProgram`: the tree of a program is in its place.
* `known_readProgram`, `fine_readProgram`: its nodes are known by their kinds.
* `start_lt_stop_readProgram`: the nodes below the program have a width.
* `over_read`, `formed_read`: so much for the tree that is read from a text.
-/

namespace ScriptTree

open List Node
open Rule
open Utf8 (size)
open Node (Laid)

variable {d : Dialect} {cs : List Char}

/-- The rule of every goal is **tidy** if the goals below it are. -/
theorem Grammar.tidy_step (g : Grammar) [g.IsTidy cs] (goal : Goal) :
    g.Tidies cs (g.step goal) := by
  cases goal <;> rw [step] <;> infer_instance

theorem tidy_readGoal (d : Dialect) (cs : List Char) (depth : Nat) (goal : Goal) :
    Tidy d cs [] (readGoal d depth goal) [] true := by
  induction depth generalizing goal with
  | zero =>
    rw [readGoal]
    infer_instance
  | succ depth ih =>
    have : Grammar.IsTidy cs ⟨d, readGoal d depth⟩ := ⟨ih⟩
    exact Grammar.tidy_step ⟨d, readGoal d depth⟩ goal

instance : Tidy d cs [] interpreterLine [] true := by
  have h : Tidy d cs [] interpreterLine ["hash_bang_line"] true := by
    refine tidy_of_immediate (fun _ l hl ↦ ?_) mem_cons_self
    obtain ⟨rest, rfl⟩ := List.isPrefixOf_iff_prefix.1 hl
    simp
  exact .prune

theorem pieceLength_pos (l : List Char) : 0 < pieceLength l := by
  unfold pieceLength
  dsimp only
  split
  · omega
  · split
    · omega
    · split
      · next h => exact (string?_pos h).1
      · omega

/-- What is no statement becomes error nodes, which are **laid out** too. -/
theorem tidy_readStatements {statement : Rule} [hstatement : Tidy d cs [] statement [] true]
    (fuel : Nat) : Tidy d cs [] (readStatements statement fuel) [Node.errorKind] false := by
  induction fuel with
  | zero =>
    rw [readStatements]
    exact Tidy.mono inferInstance (nil_subset _) (by simp)
  | succ fuel ih =>
    refine ⟨fun {ks a c c' nodes} hks hc hbefore hrun ↦ ?_, by simp⟩
    replace hrun := after_immediate (after_gap hrun)
    have hskip := c.gap_skipGap
    split at hrun
    · have hend : Tidy d cs [] (pure []) [] false := inferInstance
      exact hend.run_gap (nil_subset _) hc hskip hbefore hrun
    · next hrest =>
      replace hrun := after_get (after_offset hrun)
      -- Either way some nodes come first, and the statements after them follow.
      suffices ∃ first c₁ rest, c₁.At cs ∧ c.offset ≤ c₁.offset ∧ Laid d cs ks a c₁.offset first
          ∧ readStatements statement fuel c₁ = some (rest, c') ∧ first ++ rest = nodes by
        obtain ⟨first, c₁, rest, hc₁, hle₁, hlaid₁, hrest, rfl⟩ := this
        obtain ⟨hc₂, hle₂, hlaid₂⟩ := ih.run_nil hks hc₁ hrest
        exact ⟨hc₂, hle₁.trans hle₂, hlaid₁.append hlaid₂⟩
      have hpiece (hrun : (do
          let piece ← take Node.errorKind true (pieceLength (← immediate))
          return piece ++ (← readStatements statement fuel)) c.skipGap = some (nodes, c')) :
          ∃ first c₁ rest, c₁.At cs ∧ c.offset ≤ c₁.offset ∧ Laid d cs ks a c₁.offset first
            ∧ readStatements statement fuel c₁ = some (rest, c') ∧ first ++ rest = nodes := by
        replace hrun := after_immediate hrun
        obtain ⟨piece, c₁, htake, hrun⟩ := bind_eq_some hrun
        obtain ⟨rest, c₂, hrest', hrun⟩ := bind_eq_some hrun
        obtain ⟨rfl, rfl⟩ := pure_eq_some hrun
        have hleaf : TakesLeaf [Node.errorKind] c c₁ piece Node.errorKind true
            (pieceLength c.skipGap.rest) c.skipGap :=
          ⟨hskip, mem_cons_self, fun _ ↦ ⟨pieceLength_pos _, by simpa using hrest⟩, htake⟩
        obtain ⟨hc₁, hle₁, hlaid₁⟩ := hleaf.laid hks hc hbefore
        exact ⟨piece, c₁, rest, hc₁, hle₁, hlaid₁, hrest', rfl⟩
      cases hfirst : statement c.skipGap with
      | none =>
        rw [hfirst] at hrun
        exact hpiece hrun
      | some x =>
        obtain ⟨first, c₁⟩ := x
        simp only [hfirst] at hrun
        split at hrun
        · replace hrun := after_set hrun
          obtain ⟨rest, c₂, hrest, hrun⟩ := bind_eq_some hrun
          obtain ⟨rfl, rfl⟩ := pure_eq_some hrun
          obtain ⟨hc₁, hle₁, hlaid₁⟩ :=
            hstatement.run_gap (nil_subset _) hc hskip hbefore hfirst
          exact ⟨first, c₁, rest, hc₁, hle₁, hlaid₁, hrest, rfl⟩
        · exact hpiece hrun

/-- The **statements** of a program are laid out over its text. -/
theorem exists_laid_statements (d : Dialect) (cs : List Char) :
    ∃ stop statements, Laid d cs [] 0 stop statements
      ∧ readProgram d cs = ⟨"program", true, false, none, 0, size cs,
        attachBetween (Cursor.ofChars cs) (size cs) statements⟩ := by
  have hgoal := tidy_readGoal d cs (depthFor cs.length) .statement
  have hstatements : Tidy d cs []
      (readStatements (readGoal d (depthFor cs.length) .statement) (cs.length + 1))
        [Node.errorKind] false := tidy_readStatements _
  have hat := Cursor.at_ofChars cs
  unfold readProgram
  dsimp only
  generalize hrun : seq [opt interpreterLine, readStatements _ _] (Cursor.ofChars cs) = result
  cases result with
  | none => exact ⟨0, [], laid_nil (GapTo.refl (Utf8.isBoundary_zero cs)), rfl⟩
  | some x =>
    obtain ⟨statements, c'⟩ := x
    obtain ⟨-, -, hlaid⟩ := Tidy.run_ordinary d [] (by decide) hat hrun
    exact ⟨_, statements, hlaid, rfl⟩

/-- The tree of a program is **in its place**. -/
theorem placed_readProgram (d : Dialect) (cs : List Char) : (readProgram d cs).Placed cs := by
  obtain ⟨stop, statements, hlaid, heq⟩ := exists_laid_statements d cs
  rw [heq]
  exact ⟨Utf8.isBoundary_zero cs, Utf8.isBoundary_size cs,
    placedIn_attachBetween (Cursor.at_ofChars cs) (.inr rfl) hlaid.grown⟩

/-- The nodes of a program are **known by their kinds**, and so is their make-up. -/
theorem known_readProgram {m : Node} (hm : m ∈ (readProgram d cs).preorder) : m.Known d cs := by
  obtain ⟨stop, statements, hlaid, heq⟩ := exists_laid_statements d cs
  rw [heq] at hm
  rcases mem_cons.1 hm with rfl | hm
  · exact known_of_isOrdinary (by simp only; decide)
  · exact lasts_known.forall_attachBetween
      (fun m hm ↦ (hlaid.known m hm).resolve_left (by simp)) m hm

/-- The nodes of a program are **known by their kinds**. -/
theorem fine_readProgram {m : Node} (hm : m ∈ (readProgram d cs).preorder) : m.Fine d cs :=
  (known_readProgram hm).toFine

/-- The nodes below a program have a **width**. -/
theorem start_lt_stop_readProgram {m : Node}
    (hm : m ∈ Node.preorderAll (readProgram d cs).children) : m.start < m.stop := by
  obtain ⟨stop, statements, hlaid, heq⟩ := exists_laid_statements d cs
  have hfull : ∀ m ∈ Node.preorderAll (readProgram d cs).children, m.IsFull := by
    rw [heq]
    exact lasts_isFull.forall_attachBetween (hlaid.full (by simp))
  have hplaced : m.Placed cs := ((placed_readProgram d cs).of_mem_preorder
    (by rw [preorder_eq]; exact mem_cons_of_mem _ hm)).2.1
  exact start_lt_stop_of_isFull hplaced fun k hk ↦
    hfull k (mem_preorderAll_trans hm hk)

/-! ### Trees of texts -/

/-- A tree **over a text**: in its place, with nodes known by their kinds, and with a width of each
node below the root. -/
structure SourceTree.Over (tree : SourceTree) (d : Dialect) (cs : List Char) : Prop where
  source : tree.source = Utf8.encodeChars cs
  placed : tree.root.Placed cs
  fine : ∀ m ∈ tree.root.preorder, m.Fine d cs
  wide : ∀ m ∈ Node.preorderAll tree.root.children, m.start < m.stop

theorem over_read (d : Dialect) (cs : List Char) : (SourceTree.read d cs).Over d cs :=
  ⟨rfl, placed_readProgram d cs, fun _ ↦ fine_readProgram, fun _ ↦ start_lt_stop_readProgram⟩

/-- A tree over a text whose nodes are **made up** as their kinds say. -/
structure SourceTree.Formed (tree : SourceTree) (d : Dialect) (cs : List Char) : Prop
    extends tree.Over d cs where
  shaped : ∀ m ∈ tree.root.preorder, m.Shaped cs

theorem formed_read (d : Dialect) (cs : List Char) : (SourceTree.read d cs).Formed d cs :=
  ⟨over_read d cs, fun _ hm ↦ (known_readProgram hm).toShaped⟩

/-- A script without faults is read as such. -/
theorem readStrict_of_firstFault? (h : ((SourceTree.read d cs).root.firstFault?).isNone) :
    SourceTree.readStrict d cs = .ok (SourceTree.read d cs) := by
  simp only [SourceTree.readStrict, Option.isNone_iff_eq_none.1 h]

/-- A script that is read strictly is read **in the same way** as any other. -/
theorem eq_read_of_readStrict {tree : SourceTree} (h : SourceTree.readStrict d cs = .ok tree) :
    tree = SourceTree.read d cs := by
  simp only [SourceTree.readStrict] at h
  split at h
  · cases h
  · exact (Except.ok.inj h).symm

/-- A script with a fault is **refused**. -/
theorem readStrict_ne_ok (h : ((SourceTree.read d cs).root.firstFault?).isSome)
    (tree : SourceTree) : SourceTree.readStrict d cs ≠ .ok tree := by
  obtain ⟨fault, hfault⟩ := Option.isSome_iff_exists.1 h
  simp only [SourceTree.readStrict, hfault, ne_eq, reduceCtorEq, not_false_eq_true]

end ScriptTree
