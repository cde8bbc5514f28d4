import ScriptTree.Proofs.Faults
import ScriptTree.Proofs.StatementEnds

/-!
# Statements one by one

A script is read strictly when its statements are read **one after the other** without faults, each
from the token after the one before, up to the end of the script. `Reads` says this as a relation,
apart from the loop that turns what is no statement into error nodes, from the number of its steps,
and from the comments that are put in at the end.

The line that names the interpreter is read only at the very start, where no gap may come before it,
and is treated as a statement that stands there.

## Main results

* `Reads.run`, `reads_of_run`: a script is read by the loop as it is one by one.
* `readStrict_eq_ok_iff`: a script is well formed exactly when its statements are read one by one.
* `map_statements`: the statements of its tree are those, with the comments put in.
-/

namespace ScriptTree

open List Node
open Rule
open Utf8 (size)
open Node (Laid hasFault anyFault)

variable {d : Dialect} {cs : List Char} {length fuel : Nat} {c c' : Cursor} {n : Node}
  {ns nodes : List Node}

/-! ### What stands at a place -/

/-- What stands **at a place** outside all other statements: at the start of a script perhaps the
line that names its interpreter, and else a statement. -/
def topLevel (d : Dialect) (length : Nat) : Rule := fun c ↦
  if c.offset = 0 then alt [interpreterLine, readGoal d (depthFor length) .statement] c
  else readGoal d (depthFor length) .statement c

/-- Whether a place is the start of a script with a line that names its **interpreter**. -/
def StartsLine (c : Cursor) : Prop := c.offset = 0 ∧ "#!".toList.isPrefixOf c.rest = true

theorem interpreterLine_of_isPrefixOf (h : "#!".toList.isPrefixOf c.rest = true) :
    interpreterLine c = take "hash_bang_line" true (c.rest.takeWhile (· != '\n')).length c := by
  show (if "#!".toList.isPrefixOf c.rest = true then take _ _ _ else failure : Rule) c = _
  rw [if_pos h]

theorem interpreterLine_eq_none (h : ¬ "#!".toList.isPrefixOf c.rest = true) :
    interpreterLine c = none := by
  show (if "#!".toList.isPrefixOf c.rest = true then take _ _ _ else failure : Rule) c = _
  rw [if_neg h]
  rfl

theorem topLevel_of_startsLine (h : StartsLine c) : topLevel d length c = interpreterLine c := by
  rw [topLevel, if_pos h.1]
  show (interpreterLine c <|> _) = _
  rw [interpreterLine_of_isPrefixOf h.2]
  rfl

theorem topLevel_of_not_startsLine (h : ¬ StartsLine c) :
    topLevel d length c = readGoal d (depthFor length) .statement c := by
  unfold topLevel
  split
  · next hzero =>
    have hnone := interpreterLine_eq_none fun hline ↦ h ⟨hzero, hline⟩
    show (interpreterLine c <|> (readGoal d (depthFor length) .statement c <|> none)) = _
    rw [hnone]
    cases readGoal d (depthFor length) .statement c <;> rfl
  · rfl

/-- No gap comes before the line that names the interpreter. -/
theorem StartsLine.skipGap_eq (h : StartsLine c) : c.skipGap = c := by
  obtain ⟨after, hafter⟩ := List.isPrefixOf_iff_prefix.1 h.2
  have hrest : c.rest = '#' :: '!' :: after := hafter.symm
  exact Cursor.IsSettled.skipGap_eq
    ⟨Cursor.skipBlanks_of_notBlank hrest (by decide), by rw [hrest]; rfl⟩

theorem StartsLine.of_skipGap (hc : c.At cs) (h : StartsLine c.skipGap) : StartsLine c := by
  have hle := c.gap_skipGap.offset_le
  have hzero := h.1
  have heq : c.skipGap = c := (c.gap_skipGap.at hc).eq hc (by omega)
  rwa [heq] at h

/-- What stands at a place is **one node**. -/
theorem isStatement_topLevel (h : topLevel d length c = some (nodes, c')) :
    ∃ n, nodes = [n] ∧ IsStatement d c c' n := by
  by_cases hline : StartsLine c
  · rw [topLevel_of_startsLine hline, interpreterLine_of_isPrefixOf hline.2] at h
    obtain ⟨rfl, rfl⟩ := take_eq_some h
    have hkind : "hash_bang_line" ∉ endedKinds := by decide
    refine ⟨_, rfl, rfl, rfl, rfl, ?_, rfl, fun h ↦ absurd h hkind⟩
    rw [hline.skipGap_eq]
  · rw [topLevel_of_not_startsLine hline] at h
    exact isStatement_readGoal h

theorem isStatement_of_topLevel (h : topLevel d length c = some ([n], c')) :
    IsStatement d c c' n := by
  obtain ⟨m, heq, hm⟩ := isStatement_topLevel h
  obtain rfl := singleton_inj.1 heq
  exact hm

theorem laid_topLevel (hc : c.At cs) (h : topLevel d length c = some (nodes, c')) :
    c'.At cs ∧ c.offset ≤ c'.offset ∧ Laid d cs [] c.offset c'.offset nodes := by
  by_cases hline : StartsLine c
  · rw [topLevel_of_startsLine hline] at h
    exact Tidy.run_nil (nil_subset _) hc h
  · rw [topLevel_of_not_startsLine hline] at h
    exact (tidy_readGoal d cs _ .statement).run_nil (nil_subset _) hc h

theorem start_lt_stop_of_laid (hc : c.At cs) (h : Laid d cs [] c.offset c'.offset [n]) :
    n.start < n.stop := by
  obtain ⟨hgap, hn, -⟩ := h.grown
  have hfull : ∀ m ∈ (attachComments c n).preorder, m.IsFull := by
    refine lasts_isFull.forall_attachComments fun m hm ↦ h.full (by simp) m ?_
    rw [preorderAll_singleton, ← preorder_eq]
    exact hm
  simpa using start_lt_stop_of_isFull (placed_attachComments hc hn hgap.le) hfull

/-- What stands at a place **takes up** some of the script. -/
theorem offset_lt_of_topLevel (hc : c.At cs) (h : topLevel d length c.skipGap = some (nodes, c')) :
    c.skipGap.offset < c'.offset := by
  have hskip := c.gap_skipGap.at hc
  obtain ⟨n, rfl, hn⟩ := isStatement_topLevel h
  have hlt := start_lt_stop_of_laid hskip (laid_topLevel hskip h).2.2
  rwa [hn.start_eq, hn.stop_eq, hc.skipGap_skipGap] at hlt

/-- What lies **between two places**. -/
theorem Cursor.At.exists_between (hc : c.At cs) (hc' : c'.At cs) (hle : c.offset ≤ c'.offset) :
    ∃ between, c.rest = between ++ c'.rest ∧ c'.offset = c.offset + size between := by
  obtain ⟨before, hcs, hoffset⟩ := hc.split
  obtain ⟨before', hcs', hoffset'⟩ := hc'.split
  obtain ⟨between, rfl⟩ := Utf8.prefix_of_size_le (⟨_, hcs.symm⟩ : before <+: cs)
    (⟨_, hcs'.symm⟩ : before' <+: cs) (by omega)
  refine ⟨between, ?_, by rw [hoffset', hoffset, Utf8.size_append]⟩
  have hrest := hcs.symm.trans hcs'
  rw [append_assoc] at hrest
  exact append_cancel_left hrest

theorem Cursor.At.length_rest_lt (hc : c.At cs) (hc' : c'.At cs) (h : c.offset < c'.offset) :
    c'.rest.length < c.rest.length := by
  obtain ⟨between, hrest, hoffset⟩ := hc.exists_between hc' h.le
  cases between with
  | nil => exact absurd hoffset (Nat.ne_of_gt h)
  | cons x xs =>
    rw [hrest, length_append, length_cons]
    omega

/-! ### The loop over statements -/

section Loop

variable {statement : Rule}

theorem bind_of_eq_some {α β : Type} {p : Parse α} {f : α → Parse β} {a : α}
    (h : p c = some (a, c')) : (p >>= f) c = f a c' := by
  show (p c).bind _ = _
  rw [h]
  rfl

theorem gap_apply (c : Cursor) : gap c = some ((), c.skipGap) := rfl

theorem immediate_apply (c : Cursor) : immediate c = some (c.rest, c) := rfl

theorem offset_apply (c : Cursor) : offset c = some (c.offset, c) := rfl

theorem get_apply (c : Cursor) : (get : Parse Cursor) c = some (c, c) := rfl

theorem readStatements_of_isEmpty (h : c.skipGap.rest = []) :
    readStatements statement (fuel + 1) c = some ([], c.skipGap) := by
  rw [readStatements, bind_of_eq_some (gap_apply c), bind_of_eq_some (immediate_apply _),
    if_pos (by rw [h]; rfl)]
  rfl

theorem readStatements_of_read {first : List Node} (hne : c.skipGap.rest ≠ [])
    (hread : statement c.skipGap = some (first, c')) (hlt : c.skipGap.offset < c'.offset) :
    readStatements statement (fuel + 1) c
      = (readStatements statement fuel c').map fun x ↦ (first ++ x.1, x.2) := by
  rw [readStatements, bind_of_eq_some (gap_apply c), bind_of_eq_some (immediate_apply _),
    if_neg (by simpa using hne), bind_of_eq_some (offset_apply _), bind_of_eq_some (get_apply _),
    hread]
  dsimp only
  rw [if_pos hlt]
  show (readStatements statement fuel c').bind _ = _
  cases readStatements statement fuel c' <;> rfl

/-- What is **no statement** becomes an error node. -/
theorem readStatements_of_not_read (hne : c.skipGap.rest ≠ [])
    (hread : statement c.skipGap = none) :
    ∃ piece, hasFault piece = true ∧ readStatements statement (fuel + 1) c
      = (readStatements statement fuel (c.skipGap.advance (pieceLength c.skipGap.rest))).map
        fun x ↦ (piece :: x.1, x.2) := by
  refine ⟨⟨Node.errorKind, true, false, none, c.skipGap.offset,
    (c.skipGap.advance (pieceLength c.skipGap.rest)).offset, []⟩, rfl, ?_⟩
  rw [readStatements, bind_of_eq_some (gap_apply c), bind_of_eq_some (immediate_apply _),
    if_neg (by simpa using hne), bind_of_eq_some (offset_apply _), bind_of_eq_some (get_apply _),
    hread]
  show (readStatements statement fuel (c.skipGap.advance _)).bind _ = _
  cases readStatements statement fuel (c.skipGap.advance (pieceLength c.skipGap.rest)) <;> rfl

end Loop

/-! ### One after the other -/

/-- Statements that are read **one after the other**, without faults, from a place to the end of the
script. -/
inductive Reads (d : Dialect) (length : Nat) : Cursor → List Node → Prop
  | done {c : Cursor} (h : c.skipGap.rest = []) : Reads d length c []
  | next {c c' : Cursor} {n : Node} {ns : List Node}
      (hread : topLevel d length c.skipGap = some ([n], c')) (hfault : n.hasFault = false)
      (h : Reads d length c' ns) : Reads d length c (n :: ns)

/-- The place **after** what was read, which is further on and not the start of the script. -/
structure IsAfter (cs : List Char) (c c' : Cursor) : Prop where
  at_text : c'.At cs
  offset_lt : c.offset < c'.offset
  length_lt : c'.rest.length < c.rest.length

theorem Cursor.At.isAfter (hc : c.At cs) (hc' : c'.At cs) (h : c.offset < c'.offset) :
    IsAfter cs c c' := ⟨hc', h, hc.length_rest_lt hc' h⟩

theorem IsAfter.not_startsLine (h : IsAfter cs c c') : ¬ StartsLine c' := fun hline ↦
  absurd (hline.1 ▸ h.offset_lt) (Nat.not_lt_zero _)

theorem isAfter_of_topLevel (hc : c.At cs) (h : topLevel d length c.skipGap = some (nodes, c')) :
    IsAfter cs c c' := by
  have hskip := c.gap_skipGap
  exact hc.isAfter (laid_topLevel (hskip.at hc) h).1
    (Nat.lt_of_le_of_lt hskip.offset_le (offset_lt_of_topLevel hc h))

theorem rest_ne_nil_of_topLevel (hc : c.At cs)
    (h : topLevel d length c.skipGap = some (nodes, c')) : c.skipGap.rest ≠ [] := by
  have hskip := c.gap_skipGap.at hc
  have hlt := hskip.length_rest_lt (laid_topLevel hskip h).1 (offset_lt_of_topLevel hc h)
  intro hnil
  simp [hnil] at hlt

/-- The loop reads what is read **one by one**. -/
theorem Reads.run (h : Reads d length c ns) (hc : c.At cs) (hline : ¬ StartsLine c)
    (hfuel : c.rest.length < fuel) :
    ∃ c', readStatements (readGoal d (depthFor length) .statement) fuel c = some (ns, c') := by
  induction h generalizing fuel with
  | done h =>
    obtain ⟨fuel, rfl⟩ := Nat.exists_eq_add_of_lt hfuel
    exact ⟨_, readStatements_of_isEmpty h⟩
  | @next c c' n ns hread _ _ ih =>
    obtain ⟨more, rfl⟩ := Nat.exists_eq_add_of_lt hfuel
    have hafter := isAfter_of_topLevel hc hread
    have hmore : c'.rest.length < c.rest.length + more := Nat.lt_add_right _ hafter.length_lt
    obtain ⟨c'', hrest⟩ := ih hafter.at_text hafter.not_startsLine hmore
    refine ⟨c'', ?_⟩
    have hstatement := hread
    rw [topLevel_of_not_startsLine fun h ↦ hline (h.of_skipGap hc)] at hstatement
    rw [readStatements_of_read (rest_ne_nil_of_topLevel hc hread) hstatement
      (offset_lt_of_topLevel hc hread), hrest]
    rfl

/-- What the loop reads without faults is read **one by one**. -/
theorem reads_of_run (hc : c.At cs) (hline : ¬ StartsLine c) (hfuel : c.rest.length < fuel) :
    ∃ ns c', readStatements (readGoal d (depthFor length) .statement) fuel c = some (ns, c') ∧
      (anyFault ns = false → Reads d length c ns) := by
  induction fuel generalizing c with
  | zero => omega
  | succ fuel ih =>
    by_cases hnil : c.skipGap.rest = []
    · exact ⟨[], _, readStatements_of_isEmpty hnil, fun _ ↦ .done hnil⟩
    · have hskip := c.gap_skipGap.at hc
      have hle := c.gap_skipGap.offset_le
      have htop : topLevel d length c.skipGap = _ :=
        topLevel_of_not_startsLine fun h ↦ hline (h.of_skipGap hc)
      cases hread : readGoal d (depthFor length) .statement c.skipGap with
      | none =>
        obtain ⟨piece, hpiece, hrun⟩ := readStatements_of_not_read hnil hread
        obtain ⟨x, xs, hrest⟩ := exists_cons_of_ne_nil hnil
        have hlt := Cursor.offset_lt_advance hrest (pieceLength_pos c.skipGap.rest)
        have hafter := hc.isAfter (hskip.advance (pieceLength c.skipGap.rest)) (by omega)
        obtain ⟨ns, c'', hns, -⟩ := ih hafter.at_text hafter.not_startsLine
          (Nat.lt_of_lt_of_le hafter.length_lt (Nat.le_of_lt_succ hfuel))
        refine ⟨piece :: ns, c'', by rw [hrun, hns]; rfl, fun hfault ↦ ?_⟩
        simp [anyFault, hpiece] at hfault
      | some x =>
        obtain ⟨first, c'⟩ := x
        rw [hread] at htop
        have hafter := isAfter_of_topLevel hc htop
        obtain ⟨ns, c'', hrun, hreads⟩ := ih hafter.at_text hafter.not_startsLine
          (Nat.lt_of_lt_of_le hafter.length_lt (Nat.le_of_lt_succ hfuel))
        obtain ⟨n, rfl, -⟩ := isStatement_topLevel htop
        refine ⟨n :: ns, c'', ?_, fun hfault ↦ ?_⟩
        · rw [readStatements_of_read hnil hread (offset_lt_of_topLevel hc htop), hrun]
          rfl
        · rw [anyFault, Bool.or_eq_false_iff] at hfault
          exact .next htop hfault.1 (hreads hfault.2)

/-! ### Faults -/

namespace Node

theorem anyFault_append (ns ms : List Node) :
    anyFault (ns ++ ms) = (anyFault ns || anyFault ms) := by
  induction ns with
  | nil => rfl
  | cons n ns ih => rw [cons_append, anyFault, anyFault, ih, Bool.or_assoc]

end Node

theorem anyFault_commentsUntil (c : Cursor) (stop : Nat) :
    anyFault (c.commentsUntil stop) = false := by
  have h (ns : List Node) (hns : ∀ n ∈ ns, n.hasFault = false) : anyFault ns = false := by
    induction ns with
    | nil => rfl
    | cons n ns ih =>
      rw [anyFault, hns n mem_cons_self, ih fun m hm ↦ hns m (mem_cons_of_mem _ hm)]
      rfl
  refine h _ fun n hn ↦ ?_
  obtain ⟨start, stop, -, rfl⟩ := Cursor.eq_of_mem_commentsUntilFrom hn
  rfl

mutual

theorem hasFault_attachComments (c : Cursor) :
    ∀ n : Node, (attachComments c n).hasFault = n.hasFault
  | ⟨kind, named, missing, role, start, stop, children⟩ => by
    rw [attachComments]
    split
    · rfl
    · rw [hasFault, hasFault, anyFault_attachBetween]

/-- Putting comments in makes **no faults**, and takes none away. -/
theorem anyFault_attachBetween (c : Cursor) (stop : Nat) :
    ∀ ns : List Node, anyFault (attachBetween c stop ns) = anyFault ns
  | [] => anyFault_commentsUntil c stop
  | n :: ns => by
    rw [attachBetween, anyFault_append, anyFault_commentsUntil, Bool.false_or, anyFault,
      anyFault, hasFault_attachComments, anyFault_attachBetween]

end

/-! ### Scripts -/

/-- What the **loop** over a whole script gives, with the line before it. -/
def runProgram (d : Dialect) (cs : List Char) : Option (List Node × Cursor) :=
  seq [opt interpreterLine,
    readStatements (readGoal d (depthFor cs.length) .statement) (cs.length + 1)]
    (Cursor.ofChars cs)

theorem runProgram_eq {first : List Node}
    (h : opt interpreterLine (Cursor.ofChars cs) = some (first, c)) :
    runProgram d cs
      = (readStatements (readGoal d (depthFor cs.length) .statement) (cs.length + 1) c).map
        fun x ↦ (first ++ x.1, x.2) := by
  show (opt interpreterLine (Cursor.ofChars cs)).bind _ = _
  rw [h]
  show (Option.bind (Option.bind (readStatements _ _ c) _) _ : Option (List Node × Cursor)) = _
  cases readStatements (readGoal d (depthFor cs.length) .statement) (cs.length + 1) c with
  | none => rfl
  | some x =>
    show some (first ++ (x.1 ++ []), x.2) = _
    rw [append_nil]
    rfl

/-- The line that names the interpreter is what stands at the start of a script. -/
theorem opt_interpreterLine_of_startsLine (hline : StartsLine (Cursor.ofChars cs)) (d : Dialect)
    (length : Nat) :
    ∃ n c, opt interpreterLine (Cursor.ofChars cs) = some ([n], c) ∧ n.hasFault = false ∧
      topLevel d length (Cursor.ofChars cs).skipGap = some ([n], c) := by
  rw [hline.skipGap_eq, topLevel_of_startsLine hline]
  show ∃ n c, (interpreterLine (Cursor.ofChars cs) <|> _) = some ([n], c) ∧ _
  rw [interpreterLine_of_isPrefixOf hline.2]
  exact ⟨_, _, rfl, rfl, rfl⟩

theorem opt_interpreterLine_of_not_startsLine (hline : ¬ StartsLine (Cursor.ofChars cs)) :
    opt interpreterLine (Cursor.ofChars cs) = some ([], Cursor.ofChars cs) := by
  show (interpreterLine (Cursor.ofChars cs) <|> _) = _
  rw [interpreterLine_eq_none fun h ↦ hline ⟨rfl, h⟩]
  rfl

theorem Reads.anyFault (h : Reads d length c ns) : Node.anyFault ns = false := by
  induction h with
  | done => rfl
  | next _ hfault _ ih =>
    rw [Node.anyFault, hfault, ih]
    rfl

/-- A script that is read **one by one** is so read by the loop. -/
theorem Reads.runProgram (h : Reads d cs.length (Cursor.ofChars cs) ns) :
    ∃ c, runProgram d cs = some (ns, c) := by
  have hat := Cursor.at_ofChars cs
  by_cases hline : StartsLine (Cursor.ofChars cs)
  · obtain ⟨n, c, hopt, -, htop⟩ := opt_interpreterLine_of_startsLine hline d cs.length
    rw [runProgram_eq hopt]
    cases h with
    | done h => exact absurd h (rest_ne_nil_of_topLevel hat htop)
    | next hread _ h =>
      obtain ⟨heq, rfl⟩ := Prod.mk.inj (Option.some.inj (hread.symm.trans htop))
      obtain rfl := singleton_inj.1 heq
      have hafter := isAfter_of_topLevel hat htop
      have hfuel : _ < cs.length + 1 := Nat.lt_succ_of_lt hafter.length_lt
      obtain ⟨c', hrun⟩ := h.run hafter.at_text hafter.not_startsLine hfuel
      exact ⟨c', by rw [hrun]; rfl⟩
  · rw [runProgram_eq (opt_interpreterLine_of_not_startsLine hline)]
    obtain ⟨c', hrun⟩ := h.run hat hline (Nat.lt_succ_self cs.length)
    exact ⟨c', by rw [hrun]; rfl⟩

/-- What the loop reads without faults in a script is read **one by one**. -/
theorem reads_of_runProgram (d : Dialect) (cs : List Char) :
    ∃ ns c, runProgram d cs = some (ns, c) ∧
      (Node.anyFault ns = false → Reads d cs.length (Cursor.ofChars cs) ns) := by
  have hat := Cursor.at_ofChars cs
  by_cases hline : StartsLine (Cursor.ofChars cs)
  · obtain ⟨n, c, hopt, hfault, htop⟩ := opt_interpreterLine_of_startsLine hline d cs.length
    have hafter := isAfter_of_topLevel hat htop
    have hfuel : _ < cs.length + 1 := Nat.lt_succ_of_lt hafter.length_lt
    obtain ⟨ns, c', hrun, hreads⟩ := reads_of_run hafter.at_text hafter.not_startsLine hfuel
    refine ⟨n :: ns, c', by rw [runProgram_eq hopt, hrun]; rfl, fun hnone ↦ ?_⟩
    rw [Node.anyFault, hfault] at hnone
    exact .next htop hfault (hreads hnone)
  · obtain ⟨ns, c', hrun, hreads⟩ := reads_of_run hat hline (Nat.lt_succ_self cs.length)
    refine ⟨ns, c', ?_, hreads⟩
    rw [runProgram_eq (opt_interpreterLine_of_not_startsLine hline), hrun]
    rfl

/-- The **tree** of a script with some statements. -/
def treeOf (cs : List Char) (ns : List Node) : SourceTree :=
  ⟨Utf8.encodeChars cs, ⟨"program", true, false, none, 0, size cs,
    attachBetween (Cursor.ofChars cs) (size cs) ns⟩⟩

theorem read_eq_treeOf (h : runProgram d cs = some (ns, c)) :
    SourceTree.read d cs = treeOf cs ns := by
  have hrun : seq [opt interpreterLine, readStatements (readGoal d (depthFor cs.length) .statement)
      (cs.length + 1)] (Cursor.ofChars cs) = some (ns, c) := h
  rw [SourceTree.read, readProgram, hrun]
  rfl

/-- A script is **well formed** exactly when its statements are read one by one. -/
theorem readStrict_eq_ok_iff {tree : SourceTree} :
    SourceTree.readStrict d cs = .ok tree ↔
      ∃ ns, Reads d cs.length (Cursor.ofChars cs) ns ∧ tree = treeOf cs ns := by
  have hfault (ns : List Node) :
      (treeOf cs ns).root.firstFault? = none ↔ Node.anyFault ns = false := by
    rw [firstFault?_eq_none_iff, treeOf, hasFault, anyFault_attachBetween]
    rfl
  constructor
  · intro h
    obtain ⟨ns, c, hrun, hreads⟩ := reads_of_runProgram d cs
    have htree := (eq_read_of_readStrict h).trans (read_eq_treeOf hrun)
    refine ⟨ns, hreads ((hfault ns).1 ?_), htree⟩
    rw [← read_eq_treeOf hrun]
    cases hfirst : (SourceTree.read d cs).root.firstFault? with
    | none => rfl
    | some fault => exact absurd h (readStrict_ne_ok (by rw [hfirst]; rfl) tree)
  · rintro ⟨ns, hreads, rfl⟩
    obtain ⟨c, hrun⟩ := hreads.runProgram
    rw [← read_eq_treeOf hrun]
    refine readStrict_of_firstFault? ?_
    rw [read_eq_treeOf hrun, (hfault ns).2 hreads.anyFault]
    rfl

/-! ### The statements of a tree -/

@[simp] theorem named_attachComments (c : Cursor) (n : Node) :
    (attachComments c n).named = n.named := by
  obtain ⟨kind, named, missing, role, start, stop, children⟩ := n
  rw [attachComments]
  split <;> rfl

/-- Nodes with a name that are no comments are the **parts** of what they are put into, with the
comments put in. -/
theorem forall₂_attachBetween {stop : Nat}
    (h : ∀ n ∈ ns, n.named = true ∧ n.isComment = false) :
    List.Forall₂ (fun s n ↦ ∃ c', s = attachComments c' n)
      (((attachBetween c stop ns).filter (·.named)).filter (!·.isComment)) ns := by
  have hcomments (c : Cursor) (stop : Nat) :
      ((c.commentsUntil stop).filter (·.named)).filter (!·.isComment) = [] := by
    rw [filter_filter]
    refine filter_eq_nil_iff.2 fun m hm ↦ ?_
    obtain ⟨start, stop, -, rfl⟩ := Cursor.eq_of_mem_commentsUntilFrom hm
    simp [Node.isComment]
  induction ns generalizing c with
  | nil =>
    rw [attachBetween, hcomments]
    exact .nil
  | cons n ns ih =>
    obtain ⟨hnamed, hcomment⟩ := h n mem_cons_self
    have hcomment' : (attachComments c n).isComment = false := by
      simpa [Node.isComment] using hcomment
    rw [attachBetween, filter_append, filter_append, hcomments, filter_cons_of_pos (by simpa using hnamed),
      filter_cons_of_pos (by simp [hcomment'])]
    exact .cons ⟨c, rfl⟩ (ih fun m hm ↦ h m (mem_cons_of_mem _ hm))

theorem Reads.forall_isStatement (h : Reads d length c ns) :
    ∀ n ∈ ns, n.named = true ∧ n.isComment = false := by
  induction h with
  | done => simp
  | next hread _ _ ih =>
    have hn := isStatement_of_topLevel hread
    exact forall_mem_cons.2 ⟨⟨hn.named, hn.isComment⟩, ih⟩

/-- What putting comments in leaves alone is the same of the **statements of the tree** and of those
that are read. -/
theorem map_statements {α : Type} {f : Node → α} (hf : ∀ c n, f (attachComments c n) = f n)
    (h : Reads d length c ns) (cs : List Char) :
    (treeOf cs ns).statements.map f = ns.map f := by
  have hmap {ss ns : List Node}
      (h : List.Forall₂ (fun s n ↦ ∃ c', s = attachComments c' n) ss ns) :
      ss.map f = ns.map f := by
    induction h with
    | nil => rfl
    | cons hs _ ih =>
      obtain ⟨c', rfl⟩ := hs
      rw [map_cons, map_cons, hf, ih]
  exact hmap (forall₂_attachBetween h.forall_isStatement)

end ScriptTree
