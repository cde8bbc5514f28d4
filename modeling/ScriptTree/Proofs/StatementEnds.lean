import ScriptTree.Proofs.Program

/-!
# Where statements end

Every statement is read as **one node**, from the next token to the place where reading stops. Most
statements without a body of their own end with a semicolon, or at a place where one may be left
out; and whether it may be left out there depends on what follows the statement, not on the
statement itself.

As with tidiness, both facts are classes, and their instances follow the operators on rules. The
kinds of the nodes that a rule makes are collected, each with whether it is closed in this way,
until all of them are seen to be as they should and can be forgotten.

## Main results

* `isStatement_readGoal`: every statement is read as such a node.
-/

namespace ScriptTree

open List

namespace Rule

variable {α : Type} {d : Dialect} {r s : Rule} {rs : List Rule} {kind : String}
  {frames frames' : List (String × Bool)} {c c' : Cursor} {nodes : List Node}

/-! ### Semicolons -/

/-- Marks that **carry** a statement of a plain script over to the next line. -/
def carryingMarks : List Char :=
  ['(', '[', '\x60', ',', ':', ';', '*', '%', '>', '<', '=', '?', '^', '|', '&']

theorem of_mem_carryingMarks {x : Char} (h : x ∈ carryingMarks) :
    isSeparator x = false ∧ endsLine x = false ∧ x ≠ '/' ∧ x ≠ '\x7d' ∧
      (Terminator.carriers.contains x || x == '[' || x == '(') = true := by
  have hall : carryingMarks.all (fun x ↦ decide (isSeparator x = false ∧ endsLine x = false ∧
      x ≠ '/' ∧ x ≠ '\x7d' ∧ (Terminator.carriers.contains x || x == '[' || x == '(') = true))
      = true := by decide
  exact of_decide_eq_true (all_eq_true.1 hall x h)

theorem scanGap_of_carryingMark {x : Char} {gap rest : List Char} (hx : x ∈ carryingMarks)
    (hgap : ∀ y ∈ gap, isSeparator y = true) (through seen : Bool) (fuel : Nat) :
    (∃ l, Terminator.scanGap through seen fuel (gap ++ x :: rest) = (.reject, l)) ∨
      Terminator.scanGap through seen fuel (gap ++ x :: rest) = (.accept, x :: rest) := by
  obtain ⟨hseparator, -, hslash, -⟩ := of_mem_carryingMarks hx
  cases fuel with
  | zero => exact .inl ⟨_, rfl⟩
  | succ fuel =>
    have hdrop : (gap ++ x :: rest).dropWhile isSeparator = x :: rest := by
      rw [dropWhile_append_of_pos hgap, dropWhile_cons_of_neg (by simp [hseparator])]
    refine .inr ?_
    rw [Terminator.scanGap]
    split <;> simp_all

theorem plainEnds_cons {goesOn : Bool} {fuel : Nat} {y : Char} {l : List Char} (hslash : y ≠ '/')
    (hbrace : y ≠ '\x7d') :
    Terminator.plainEnds goesOn (fuel + 1) (y :: l)
      = if endsLine y then
          match Terminator.scanGap true false fuel l with
          | (.reject, _) => false
          | (_, rest) => Terminator.plainLineBegins rest
        else if isSeparator y then Terminator.plainEnds goesOn fuel l else false := by
  rw [Terminator.plainEnds]
  · dsimp only
    split
    · next heq => exact absurd (List.cons.inj heq).1 hbrace
    · next heq =>
      obtain ⟨rfl, rfl⟩ := List.cons.inj heq
      rfl
    · next heq => cases heq
  · exact cons_ne_nil _ _
  · exact fun _ heq ↦ hslash (List.cons.inj heq).1

/-- No statement of a plain script ends before such a mark **without a semicolon**, whichever line
the mark stands on. -/
theorem plainEnds_eq_false {goesOn : Bool} {x : Char} {gap rest : List Char}
    (hx : x ∈ carryingMarks) (hgap : ∀ y ∈ gap, isSeparator y = true) (fuel : Nat) :
    Terminator.plainEnds goesOn fuel (gap ++ x :: rest) = false := by
  obtain ⟨hseparator, hline, hslash, hbrace, hcarries⟩ := of_mem_carryingMarks hx
  induction gap generalizing fuel with
  | nil =>
    cases fuel with
    | zero => rfl
    | succ fuel =>
      rw [nil_append, plainEnds_cons hslash hbrace, if_neg (by simp [hline]),
        if_neg (by simp [hseparator])]
  | cons y gap ih =>
    obtain ⟨hy, hgap⟩ := forall_mem_cons.1 hgap
    have hother : y ≠ '/' ∧ y ≠ '\x7d' := by
      constructor <;> (rintro rfl; exact absurd hy (by decide))
    cases fuel with
    | zero => rfl
    | succ fuel =>
      rw [cons_append, plainEnds_cons hother.1 hother.2]
      split
      · -- The line ends here, so the mark stands at the start of a later one.
        rcases scanGap_of_carryingMark hx hgap true false fuel with ⟨l, hscan⟩ | hscan
        · rw [hscan]
        · rw [hscan]
          exact if_pos hcarries
      · exact ih hgap fuel

/-- What was read up to a place is **closed** there: by a semicolon, or because one may be left out
before what follows. -/
def Closed (d : Dialect) (nodes : List Node) (c : Cursor) : Prop :=
  (∃ n, nodes.getLast? = some n ∧ n.kind = ";") ∨
    ∃ goesOn, Terminator.endsHere d goesOn false c.rest = true

/-- What is not closed by a semicolon is **not followed** by a mark that carries it on. -/
theorem Closed.not_mem_carryingMarks {x : Char} {gap rest : List Char} (h : Closed .plain nodes c)
    (hsemicolon : ∀ n, nodes.getLast? = some n → n.kind ≠ ";") (hrest : c.rest = gap ++ x :: rest)
    (hgap : ∀ y ∈ gap, isSeparator y = true) : x ∉ carryingMarks := by
  intro hx
  rcases h with ⟨n, hlast, hkind⟩ | ⟨goesOn, hends⟩
  · exact hsemicolon n hlast hkind
  · rw [hrest, Terminator.endsHere, plainEnds_eq_false hx hgap] at hends
    exact Bool.false_ne_true hends

theorem Closed.append (h : Closed d nodes c) (before : List Node) :
    Closed d (before ++ nodes) c := by
  refine h.imp_left ?_
  rintro ⟨n, hlast, hkind⟩
  exact ⟨n, by rw [getLast?_append, hlast, Option.some_or], hkind⟩

/-- A rule of which all that it reads is **closed** where it ends. -/
class Ends (d : Dialect) (r : Rule) : Prop where
  closed : ∀ {c c' : Cursor} {nodes : List Node}, r c = some (nodes, c') → Closed d nodes c'

theorem closed_of_semicolonFrom {goesOn : Bool} {fuel : Nat}
    (h : semicolonFrom d goesOn false fuel c = some (nodes, c')) : Closed d nodes c' := by
  induction fuel generalizing c with
  | zero => cases h
  | succ fuel ih =>
    replace h := after_immediate h
    split at h
    · next hends =>
      obtain ⟨rfl, rfl⟩ := pure_eq_some h
      exact .inr ⟨goesOn, hends⟩
    · obtain ⟨c₂, c₃, -, h⟩ := bind_eq_some h
      cases hn : Cursor.commentLength? c₂.skipBlanks.rest with
      | some n =>
        simp only [hn] at h
        exact ih h
      | none =>
        simp only [hn] at h
        split at h
        · obtain ⟨rfl, -⟩ := take_eq_some h
          exact .inl ⟨_, rfl, rfl⟩
        · cases h

instance {g : Grammar} {goesOn : Bool} : Ends g.dialect (g.semicolon goesOn) := by
  refine ⟨fun h ↦ ?_⟩
  exact closed_of_semicolonFrom h

instance [hr : Ends d r] : Ends d (seq [r]) := by
  refine ⟨fun h ↦ ?_⟩
  obtain ⟨first, c₁, rest, hfirst, hrest, rfl⟩ := seq_cons_eq_some h
  obtain ⟨rfl, rfl⟩ := pure_eq_some hrest
  rw [append_nil]
  exact hr.closed hfirst

instance [hrs : Ends d (seq (s :: rs))] : Ends d (seq (r :: s :: rs)) := by
  refine ⟨fun h ↦ ?_⟩
  obtain ⟨first, c₁, rest, -, hrest, rfl⟩ := seq_cons_eq_some h
  exact (hrs.closed hrest).append first

instance : Ends d (alt []) := ⟨fun h ↦ nomatch h⟩

instance [hr : Ends d r] [hrs : Ends d (alt rs)] : Ends d (alt (r :: rs)) :=
  ⟨fun h ↦ (orElse_eq_some h).elim hr.closed hrs.closed⟩

/-- What ends a rule may depend on what was read **before**. -/
instance {f : List Node → Rule} [hf : ∀ before, Ends d (f before)] :
    Ends d (r >>= fun before ↦ f before >>= fun ending ↦ pure (before ++ ending)) := by
  refine ⟨fun h ↦ ?_⟩
  obtain ⟨before, c₁, -, h⟩ := bind_eq_some h
  obtain ⟨ending, c₂, hending, h⟩ := bind_eq_some h
  obtain ⟨rfl, rfl⟩ := pure_eq_some h
  exact ((hf before).closed hending).append before

/-! ### Single nodes -/

/-- The kinds of statements that end with a **semicolon** if none may be left out. -/
def endedKinds : List String :=
  ["expression_statement", "variable_declaration", "lexical_declaration", "import_statement",
    "return_statement", "throw_statement", "break_statement", "continue_statement",
    "debugger_statement"]

/-- Whether a node of some kind, closed or not, may be a statement. -/
def fitsStatement (frame : String × Bool) : Bool :=
  frame.1 != Node.commentKind && frame.1 != Node.errorKind
    && (!endedKinds.contains frame.1 || frame.2)

/-- A rule that reads **one node**, from the next token to where it ends. Which kinds it has, and
whether it is closed then, is left open by `frames`. -/
class Frames (d : Dialect) (r : Rule) (frames : outParam (List (String × Bool))) : Prop where
  framed : ∀ {c c' : Cursor} {nodes : List Node}, r c = some (nodes, c') →
    ∃ frame children, (frame ∈ frames ∨ fitsStatement frame = true) ∧
      nodes = [⟨frame.1, true, false, none, c.skipGap.offset, c'.offset, children⟩] ∧
      (frame.2 = true → Closed d children c')

theorem Frames.mono (h : Frames d r frames) (hsub : frames ⊆ frames') : Frames d r frames' := by
  refine ⟨fun hrun ↦ ?_⟩
  obtain ⟨frame, children, hframe, hfound⟩ := h.framed hrun
  exact ⟨frame, children, hframe.imp_left fun hmem ↦ hsub hmem, hfound⟩

/-- What may be a statement is **forgotten**. -/
theorem Frames.prune [h : Frames d r frames]
    (hfits : frames.all fitsStatement = true := by decide) : Frames d r [] := by
  refine ⟨fun hrun ↦ ?_⟩
  obtain ⟨frame, children, hframe, hfound⟩ := h.framed hrun
  exact ⟨frame, children, .inr (hframe.elim (all_eq_true.1 hfits frame) id), hfound⟩

instance (priority := low) : Frames d (node kind r) [(kind, false)] := by
  refine ⟨fun hrun ↦ ?_⟩
  obtain ⟨children, -, rfl⟩ := node_eq_some hrun
  exact ⟨_, children, .inl (mem_singleton_self _), rfl, fun h ↦ absurd h Bool.false_ne_true⟩

instance [hr : Ends d r] : Frames d (node kind r) [(kind, true)] := by
  refine ⟨fun hrun ↦ ?_⟩
  obtain ⟨children, hchildren, rfl⟩ := node_eq_some hrun
  exact ⟨_, children, .inl (mem_singleton_self _), rfl, fun _ ↦ hr.closed hchildren⟩

instance : Frames d failure [] := ⟨fun hrun ↦ nomatch hrun⟩

instance : Frames d (alt []) [] := ⟨fun hrun ↦ nomatch hrun⟩

instance [hr : Frames d r frames] [hrs : Frames d (alt rs) frames'] :
    Frames d (alt (r :: rs)) (frames ++ frames') := by
  refine ⟨fun hrun ↦ ?_⟩
  rcases orElse_eq_some hrun with hrun | hrun
  · exact (hr.mono (subset_append_left _ _)).framed hrun
  · exact (hrs.mono (subset_append_right _ _)).framed hrun

instance {p : Prop} [Decidable p] [hr : Frames d r frames] [hs : Frames d s frames'] :
    Frames d (if p then r else s) (frames ++ frames') := by
  split
  · exact hr.mono (subset_append_left _ _)
  · exact hs.mono (subset_append_right _ _)

instance {g : Grammar} [hr : Frames d r frames] : Frames d (g.whenTyped r) (frames ++ []) := by
  unfold Grammar.whenTyped
  infer_instance

/-- What is seen without moving may decide which node is read. -/
theorem Frames.of_still {p : Parse α} {f : α → Rule} [hp : Still p]
    (h : ∀ a, Frames d (f a) frames) : Frames d (p >>= f) frames := by
  refine ⟨fun hrun ↦ ?_⟩
  obtain ⟨a, c₁, hpc, hfc⟩ := bind_eq_some hrun
  obtain rfl := hp.eq hpc
  exact (h a).framed hfc

instance {p : Parse α} {f : α → Rule} [Still p] [h : ∀ a, Frames d (f a) frames] :
    Frames d (p >>= f) frames := .of_still h

/-- What is known of the node of a **statement** that is read from one place to another. -/
structure IsStatement (d : Dialect) (c c' : Cursor) (n : Node) : Prop where
  named : n.named = true
  isComment : n.isComment = false
  isFault : n.isFault = false
  start_eq : n.start = c.skipGap.offset
  stop_eq : n.stop = c'.offset
  closed : n.kind ∈ endedKinds → Closed d n.children c'

theorem Frames.isStatement [h : Frames d r []] (hrun : r c = some (nodes, c')) :
    ∃ n, nodes = [n] ∧ IsStatement d c c' n := by
  obtain ⟨frame, children, hframe, rfl, hclosed⟩ := h.framed hrun
  have hfits := hframe.resolve_left not_mem_nil
  simp only [fitsStatement, Bool.and_eq_true, bne_iff_ne, Bool.or_eq_true,
    Bool.not_eq_true', contains_eq_mem, decide_eq_false_iff_not] at hfits
  obtain ⟨⟨hcomment, herror⟩, hended⟩ := hfits
  exact ⟨_, rfl, rfl, by simp [Node.isComment, hcomment], by simp [Node.isFault, herror], rfl, rfl,
    fun hkind ↦ hclosed (hended.resolve_left fun hnot ↦ hnot hkind)⟩

end Rule

/-! ### Statements -/

open Rule

namespace Grammar

variable (g : Grammar)

instance : Ends g.dialect g.importRest := by
  unfold importRest
  infer_instance

instance : Frames g.dialect g.importStatement [] := by
  unfold importStatement
  exact .prune

instance : Frames g.dialect g.importAlias [] := by
  unfold importAlias
  exact .prune

instance : Frames g.dialect g.exportStatement [] := by
  unfold exportStatement
  exact .prune

instance {kind : String} {words : List String} :
    Frames g.dialect (g.variableList kind words) [(kind, true)] := by
  unfold variableList
  infer_instance

instance : Frames g.dialect g.oldVariables [] := by
  unfold oldVariables
  exact .prune

instance : Frames g.dialect g.blockVariables [] := by
  unfold blockVariables
  exact .prune

instance : Frames g.dialect g.enum [] := by
  unfold enum
  exact .prune

instance : Frames g.dialect g.functionDeclaration [] := by
  unfold functionDeclaration
  exact .prune

instance : Frames g.dialect g.functionSignature [] := by
  unfold functionSignature
  exact .prune

instance : Frames g.dialect g.classDeclaration [] := by
  unfold classDeclaration
  exact .prune

instance : Frames g.dialect g.abstractClass [] := by
  unfold abstractClass
  exact .prune

instance : Frames g.dialect g.typedDeclaration [] := by
  unfold typedDeclaration interface typeAlias moduleBlock
  refine .of_still fun w ↦ ?_
  split <;> exact .prune

instance : Frames g.dialect g.ambient [] := by
  unfold ambient
  exact .prune

instance : Frames g.dialect g.block [] := by
  unfold block
  exact .prune

instance : Frames g.dialect g.expressionStatement [] := by
  unfold expressionStatement
  exact .prune

instance : Frames g.dialect g.openStatement [] := by
  unfold openStatement labeledStatement
  exact .prune

instance : Frames g.dialect g.wordStatement [] := by
  unfold wordStatement ifStatement forEach forStatement whileStatement doStatement switchStatement
    tryStatement withStatement jump returnStatement throwStatement debuggerStatement
  refine .of_still fun w ↦ ?_
  split <;> exact .prune

instance [Frames g.dialect (g.read .block) []] : Frames g.dialect g.statement [] := by
  unfold statement emptyStatement
  refine .of_still fun l ↦ ?_
  split <;> exact .prune

end Grammar

instance (d : Dialect) (depth : Nat) : Frames d (readGoal d depth .block) [] := by
  cases depth with
  | zero =>
    rw [readGoal]
    infer_instance
  | succ depth =>
    have h (g : Grammar) : Frames g.dialect (g.step .block) [] := by
      rw [Grammar.step]
      infer_instance
    exact h ⟨d, readGoal d depth⟩

instance (d : Dialect) (depth : Nat) : Frames d (readGoal d depth .statement) [] := by
  cases depth with
  | zero =>
    rw [readGoal]
    infer_instance
  | succ depth =>
    have h (g : Grammar) [Frames g.dialect (g.read .block) []] :
        Frames g.dialect (g.step .statement) [] := by
      rw [Grammar.step]
      infer_instance
    have hblock : Frames d (readGoal d depth .block) [] := inferInstance
    exact @h ⟨d, readGoal d depth⟩ hblock

/-- **Every statement** is read as one node, which is closed if it is of a kind that ends with a
semicolon. -/
theorem isStatement_readGoal {d : Dialect} {depth : Nat} {c c' : Cursor} {nodes : List Node}
    (h : readGoal d depth .statement c = some (nodes, c')) :
    ∃ n, nodes = [n] ∧ IsStatement d c c' n := Frames.isStatement h

end ScriptTree
