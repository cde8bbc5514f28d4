import ScriptTree.Proofs.Tidy

/-!
# What rules show

A rule without repetitions gives nodes of which the **looks** can be told beforehand: there are
finitely many lists, and they are computed along the operators on rules. A node around such a rule
follows the patterns of its kind if all these lists are among them.

## Main results

* `Rule.tidy_node`: a node of which all is known is tidy.
* `Rule.shaped_of_shows`: a node around such a rule is made up as its kind says.
-/

namespace ScriptTree

open List
open Node (Look look Known)

namespace Rule

variable {d : Dialect} {cs : List Char} {before : List Node} {r s : Rule} {rs : List Rule}
  {made : List String} {kind : String} {shown shown' : List (List Look)}

/-- A rule that gives nodes whose **looks** are one of some lists. -/
class Shows (r : Rule) (shown : outParam (List (List Look))) : Prop where
  mem : ∀ {c c' : Cursor} {nodes : List Node}, r c = some (nodes, c') → nodes.map look ∈ shown

/-! ### Tokens and nodes -/

/-- What is **taken** is one leaf. -/
theorem shows_of_take {named : Bool} (h : ∀ {c c' : Cursor} {nodes : List Node},
    r c = some (nodes, c') → ∃ n c₁, take kind named n c₁ = some (nodes, c')) :
    Shows r [[⟨none, named, kind⟩]] := by
  refine ⟨fun hrun ↦ ?_⟩
  obtain ⟨n, c₁, htake⟩ := h hrun
  obtain ⟨rfl, -⟩ := take_eq_some htake
  exact mem_singleton_self _

instance {w : String} : Shows (word w) [[Look.token w]] := by
  refine shows_of_take fun {c c' nodes} hrun ↦ ?_
  obtain ⟨l, c₁, -, hrun⟩ := bind_eq_some hrun
  split at hrun
  · exact ⟨_, _, hrun⟩
  · cases hrun

instance {p : String} : Shows (mark p) [[Look.token p]] := by
  refine shows_of_take fun {c c' nodes} hrun ↦ ?_
  obtain ⟨l, c₁, -, hrun⟩ := bind_eq_some hrun
  split at hrun
  · exact ⟨_, _, hrun⟩
  · cases hrun

instance {ws : List String} : Shows (oneWord ws) (ws.map fun w ↦ [Look.token w]) := by
  refine ⟨fun {c c' nodes} hrun ↦ ?_⟩
  obtain ⟨w, c₁, -, hrun⟩ := bind_eq_some hrun
  split at hrun
  · next hw =>
    refine mem_map.2 ⟨w, by simpa using hw, ?_⟩
    exact (mem_singleton.1 ((inferInstance : Shows (word w) _).mem hrun)).symm
  · cases hrun

instance : Shows (anyName kind) [[Look.part kind]] := by
  refine shows_of_take fun {c c' nodes} hrun ↦ ?_
  obtain ⟨n, c₁, -, hrun⟩ := bind_eq_some hrun
  split at hrun
  · cases hrun
  · exact ⟨_, _, hrun⟩

instance : Shows identifier [[Look.part "identifier"]] := by
  refine shows_of_take fun {c c' nodes} hrun ↦ ?_
  obtain ⟨l, c₁, -, hrun⟩ := bind_eq_some hrun
  dsimp only at hrun
  split at hrun
  · cases hrun
  · exact ⟨_, _, hrun⟩

instance : Shows string [[Look.part "string"]] := by
  refine shows_of_take fun {c c' nodes} hrun ↦ ?_
  obtain ⟨l, c₁, -, hrun⟩ := bind_eq_some hrun
  cases hn : Lexeme.string? l with
  | none =>
    rw [hn] at hrun
    cases hrun
  | some n =>
    simp only [hn] at hrun
    exact ⟨_, _, hrun⟩

instance : Shows (node kind r) [[Look.part kind]] := by
  refine ⟨fun hrun ↦ ?_⟩
  obtain ⟨children, -, rfl⟩ := node_eq_some hrun
  exact mem_singleton_self _

instance : Shows (extend kind before r) [[Look.part kind]] := by
  refine ⟨fun hrun ↦ ?_⟩
  obtain ⟨after, -, rfl⟩ := extend_eq_some hrun
  exact mem_singleton_self _

instance {role : Role} [h : Shows r shown] :
    Shows (field role r) (shown.map fun l ↦ l.map (Look.inRole · role)) := by
  refine ⟨fun {c c' nodes} hrun ↦ ?_⟩
  obtain ⟨inner, c₁, hinner, hrun⟩ := bind_eq_some hrun
  obtain ⟨rfl, -⟩ := pure_eq_some hrun
  refine mem_map.2 ⟨_, h.mem hinner, ?_⟩
  rw [map_map, map_map]
  rfl

/-! ### Operators -/

instance : Shows (ahead r) [[]] := by
  refine ⟨fun {c c' nodes} hrun ↦ ?_⟩
  obtain ⟨c₁, c₂, -, hrun⟩ := bind_eq_some hrun
  obtain ⟨_, c₄, -, hrun⟩ := bind_eq_some hrun
  obtain ⟨rfl, -⟩ := pure_eq_some hrun
  exact mem_singleton_self _

instance : Shows (seq []) [[]] := by
  refine ⟨fun hrun ↦ ?_⟩
  obtain ⟨rfl, -⟩ := pure_eq_some hrun
  exact mem_singleton_self _

instance [h : Shows r shown] [h' : Shows (seq rs) shown'] :
    Shows (seq (r :: rs)) (shown.flatMap fun l ↦ shown'.map (l ++ ·)) := by
  refine ⟨fun hrun ↦ ?_⟩
  obtain ⟨first, c₁, rest, hfirst, hrest, rfl⟩ := seq_cons_eq_some hrun
  rw [map_append]
  exact mem_flatMap.2 ⟨_, h.mem hfirst, mem_map_of_mem (h'.mem hrest)⟩

instance [h : Shows r shown] [h' : Shows s shown'] : Shows (r <|> s) (shown ++ shown') := by
  refine ⟨fun hrun ↦ mem_append.2 ?_⟩
  exact (orElse_eq_some hrun).imp h.mem h'.mem

instance : Shows (alt []) [] := ⟨fun hrun ↦ nomatch hrun⟩

instance [Shows r shown] [Shows (alt rs) shown'] : Shows (alt (r :: rs)) (shown ++ shown') :=
  inferInstanceAs (Shows (r <|> alt rs) _)

instance [Shows r shown] : Shows (opt r) (shown ++ [[]]) :=
  inferInstanceAs (Shows (r <|> seq []) _)

/-- A chain gives what it starts with, or what its **last step** gives. -/
instance {step : List Node → Rule} [h : Shows r shown] [h' : ∀ nodes, Shows (step nodes) shown'] :
    Shows (chain r step) (shown ++ shown') := by
  have hfrom {fuel : Nat} {nodes nodes' : List Node} {c c' : Cursor}
      (hnodes : nodes.map look ∈ shown ++ shown')
      (hrun : chainFrom step fuel nodes c = some (nodes', c')) :
      nodes'.map look ∈ shown ++ shown' := by
    induction fuel generalizing nodes c with
    | zero =>
      obtain ⟨rfl, -⟩ := pure_eq_some hrun
      exact hnodes
    | succ fuel ih =>
      rcases chainFrom_eq_some hrun with ⟨rfl, -⟩ | ⟨longer, c₁, hlonger, hrun⟩
      · exact hnodes
      · exact ih (mem_append_right _ ((h' nodes).mem hlonger)) hrun
  refine ⟨fun hrun ↦ ?_⟩
  obtain ⟨first, c₁, hfirst, hrun⟩ := bind_eq_some hrun
  exact hfrom (mem_append_left _ (h.mem hfirst)) hrun

/-- A statement **ends** with a semicolon or with nothing. -/
instance {g : Grammar} {goesOn : Bool} : Shows (g.semicolon goesOn) [[], [Look.token ";"]] := by
  have hfrom {goesOn signature : Bool} {fuel : Nat} {nodes : List Node} {c c' : Cursor}
      (hrun : semicolonFrom g.dialect goesOn signature fuel c = some (nodes, c')) :
      nodes.map look ∈ [[], [Look.token ";"]] := by
    induction fuel generalizing c with
    | zero => cases hrun
    | succ fuel ih =>
      obtain ⟨l, c₁, -, hrun⟩ := bind_eq_some hrun
      split at hrun
      · obtain ⟨rfl, -⟩ := pure_eq_some hrun
        exact mem_cons_self
      · obtain ⟨c₂, c₃, -, hrun⟩ := bind_eq_some hrun
        cases hn : Cursor.commentLength? c₂.skipBlanks.rest with
        | some n =>
          simp only [hn] at hrun
          exact ih hrun
        | none =>
          simp only [hn] at hrun
          split at hrun
          · obtain ⟨rfl, -⟩ := take_eq_some hrun
            exact mem_cons_of_mem _ (mem_singleton_self _)
          · cases hrun
  refine ⟨fun hrun ↦ ?_⟩
  exact hfrom hrun

/-! ### Nodes that are made up in a known way -/

/-- A node **of which all is known** is tidy if what is put into it is. -/
theorem tidy_node (hr : Tidy d cs [] r made true)
    (hknown : ∀ {c c' : Cursor} {children : List Node}, r c = some (children, c') →
      ∀ start stop, Known d cs ⟨kind, true, false, none, start, stop, children⟩) :
    Tidy d cs [] (node kind r) made true := by
  refine ⟨fun {ks a c c' nodes} hks hc hbefore hrun ↦ ?_, fun hrun _ ↦ ?_⟩
  all_goals obtain ⟨children, hchildren, rfl⟩ := node_eq_some hrun
  case refine_2 => simp
  have hskip := c.gap_skipGap
  obtain ⟨hc', hle, hlaid⟩ := hr.run_nil hks (hskip.at hc) hchildren
  exact ⟨hc', Nat.le_trans hskip.offset_le hle,
    hlaid.node (GapTo.trans hbefore.grown (GapTo.of_gap hc hskip))
      (fun _ ↦ hr.ne_nil hchildren (.inl rfl)) hc'.isBoundary (.inr (hknown hchildren _ _))⟩

/-- A node around a rule that shows **patterns** of its kind is made up as its kind says. -/
theorem shaped_of_shows [h : Shows r shown] (hkind : kind ∈ Node.patternKinds)
    (hshown : shown ⊆ Node.patternsOf kind) {c c' : Cursor} {children : List Node}
    (hrun : r c = some (children, c')) (start stop : Nat) :
    Node.Shaped cs ⟨kind, true, false, none, start, stop, children⟩ := by
  have hname : Node.nameKind ∉ Node.patternKinds := by decide
  have hcomment : ∀ k ∈ Node.patternKinds, ∀ l ∈ Node.patternsOf k, ∀ a ∈ l,
      a.kind ≠ Node.commentKind := by decide
  have hlooks := hshown (h.mem hrun)
  have hnone (m) (hm : m ∈ children) : m.isComment = false := by
    simpa [Node.isComment, look] using hcomment _ hkind _ hlooks _ (mem_map_of_mem hm)
  refine ⟨fun heq ↦ absurd (heq ▸ hkind) hname, fun _ ↦ ?_, fun _ m hm hm' ↦ ?_⟩
  · rwa [Node.looks, filter_eq_self.2 fun m hm ↦ by simp [hnone m hm]]
  · exact absurd ((hnone m hm).symm.trans hm') (by decide)

/-- A node around a rule that shows patterns of its kind is **tidy**. -/
theorem tidy_shown [Shows r shown] (hkind : kind ∈ Node.patternKinds)
    (hfree : Node.isFree kind = true) (hshown : shown ⊆ Node.patternsOf kind)
    (hr : Tidy d cs [] r made true) : Tidy d cs [] (node kind r) made true :=
  tidy_node hr fun hrun start stop ↦
    ⟨Node.fine_of_isFree hfree, shaped_of_shows hkind hshown hrun start stop⟩

end Rule

end ScriptTree
