import ScriptTree.Proofs.Statements

/-!
# Statements cut out

When whole statements are cut out of a script, the gaps around them run together and are one gap
between the statements that are left. So reading what is left comes to each of these in turn, for as
long as each is read **as it stood**: from its own start to its own end. A statement that is read
further than that takes up some of the next one, and one that is read less far leaves a rest.

A gap stays a gap when other text comes after it, since a comment up to the end of a line is
followed by that end of the line before anything else can come. Only at the end of the script may
such a comment stop without it.

## Main results

* `Cursor.Gap.transfer`: a gap before other text.
* `reads_cut_iff`: what is left is read as the statements that are left exactly when each of them is
  read as it stood.
-/

namespace ScriptTree

open List
open Utf8 (size located)

variable {d d' : Dialect} {cs : List Char} {length : Nat} {c c' o : Cursor} {n : Node}
  {ns : List Node} {gone : Nat → Bool} {p : Node → Bool}

/-! ### Gaps before other text -/

namespace Cursor

theorem blockCommentLength?_append {l : List Char} {n : Nat}
    (h : blockCommentLength? l = some n) (rest : List Char) :
    2 ≤ n ∧ n ≤ l.length ∧ blockCommentLength? (l.take n ++ rest) = some n := by
  fun_induction blockCommentLength? l generalizing n with
  | case1 => cases h
  | case2 =>
    cases h
    exact ⟨Nat.le_refl 2, by simp, rfl⟩
  | case3 x xs hstart ih =>
    obtain ⟨k, hk, rfl⟩ := Option.map_eq_some_iff.1 h
    obtain ⟨htwo, hle, hlength⟩ := ih hk
    refine ⟨by omega, Nat.succ_le_succ hle, ?_⟩
    rw [take_succ_cons, cons_append, blockCommentLength?, hlength]
    · rfl
    · -- The comment goes on, so its next character is not one of those that follow it.
      intro ys hx hys
      obtain ⟨k, rfl⟩ := Nat.exists_eq_add_of_le htwo
      cases xs with
      | nil => cases hk
      | cons z zs =>
        rw [Nat.add_comm] at hys
        exact hstart zs hx (by rw [(List.cons.inj hys).1])

theorem isBlank_of_endsLine {x : Char} (h : (x == '\r' || endsLine x) = true) :
    isBlank x = true := by
  rcases Bool.or_eq_true_iff.1 h with hx | hx
  · rw [beq_iff_eq.1 hx]
    decide
  · simp only [endsLine, Bool.or_eq_true, beq_iff_eq] at hx
    rcases hx with (rfl | hx) | hx
    · decide
    · simp [isBlank, isSeparator, hx]
    · simp [isBlank, isSeparator, hx]

theorem head?_drop_takeWhile {q : Char → Bool} {l : List Char} {x : Char}
    (h : x ∈ (l.drop (l.takeWhile q).length).head?) : q x = false := by
  have hdrop : (l.takeWhile q ++ l.dropWhile q).drop (l.takeWhile q).length = l.dropWhile q :=
    drop_left
  rw [takeWhile_append_dropWhile] at hdrop
  have hnot := head?_dropWhile_not q l
  rwa [← hdrop, h] at hnot

/-- A **line comment** has the same length before other text that starts in the same way, or if what
follows it is no blank. -/
theorem lineCommentLength_append {l rest : List Char}
    (hrest : rest.head? = (l.drop (lineCommentLength l)).head? ∨
      ∃ x ∈ (l.drop (lineCommentLength l)).head?, isBlank x = false) :
    lineCommentLength (l.take (lineCommentLength l) ++ rest) = lineCommentLength l := by
  have hends {x : Char} (hx : x ∈ (l.drop (lineCommentLength l)).head?) :
      (x == '\r' || endsLine x) = true := by
    simpa only [Bool.not_eq_false'] using head?_drop_takeWhile hx
  have hnone : rest.takeWhile (fun x ↦ !(x == '\r' || endsLine x)) = [] := by
    rcases hrest with hhead | ⟨x, hx, hblank⟩
    · cases rest with
      | nil => rfl
      | cons y ys => rw [takeWhile_cons_of_neg (by rw [hends hhead.symm]; decide)]
    · simp [isBlank_of_endsLine (hends hx)] at hblank
  unfold lineCommentLength
  rw [take_length_takeWhile, takeWhile_append_of_pos fun x hx ↦
    mem_takeWhile_imp (p := fun x ↦ !(x == '\r' || endsLine x)) hx, hnone, append_nil]

/-- A **comment** stays one before other text that starts in the same way, or if what follows it is
no blank. -/
theorem commentLength?_append {l rest : List Char} {n : Nat} (h : commentLength? l = some n)
    (hrest : rest.head? = (l.drop n).head? ∨ ∃ x ∈ (l.drop n).head?, isBlank x = false) :
    n ≤ l.length ∧ commentLength? (l.take n ++ rest) = some n := by
  unfold commentLength? at h
  split at h
  · next l =>
    cases h
    rw [Nat.add_comm] at hrest ⊢
    refine ⟨Nat.add_le_add_right (List.takeWhile_prefix _).length_le 2, ?_⟩
    rw [take_succ_cons, take_succ_cons, cons_append, cons_append,
      commentLength?, lineCommentLength_append hrest, Nat.add_comm]
  · next l =>
    obtain ⟨k, hk, rfl⟩ := Option.map_eq_some_iff.1 h
    obtain ⟨-, hle, hlength⟩ := blockCommentLength?_append hk rest
    rw [Nat.add_comm]
    refine ⟨Nat.add_le_add_right hle 2, ?_⟩
    rw [take_succ_cons, take_succ_cons, cons_append, cons_append,
      commentLength?, hlength, Nat.add_comm]
    rfl
  · cases h

/-- A gap stays a gap **before other text**, unless that comes after the end of the script. -/
theorem Gap.transfer (h : Gap c c') (hsettled : ∀ x ∈ c'.rest.head?, isBlank x = false) :
    ∃ between, c.rest = between ++ c'.rest ∧ c'.offset = c.offset + size between ∧
      ∀ tail offset limit, (c'.rest = [] → tail = []) →
        Gap ⟨between ++ tail, offset, limit⟩ ⟨tail, offset + size between, limit⟩ := by
  induction h with
  | refl c => exact ⟨[], rfl, rfl, fun tail offset limit _ ↦ .refl _⟩
  | @blank c c' x xs hrest hx _ ih =>
    obtain ⟨between, hsplit, hoffset, hgap⟩ := ih hsettled
    have hxs : (c.advance 1).rest = xs := by simp [advance, hrest]
    have hwidth : (c.advance 1).offset = c.offset + x.utf8Size := by simp [advance, hrest]
    refine ⟨x :: between, by rw [hrest, ← hxs, hsplit]; rfl, ?_, fun tail offset limit hend ↦ ?_⟩
    · rw [hoffset, hwidth, Utf8.size_cons, Nat.add_assoc]
    · have hstep : (Cursor.mk (x :: (between ++ tail)) offset limit).advance 1
          = ⟨between ++ tail, offset + x.utf8Size, limit⟩ := by simp [advance]
      have hmore := hgap tail (offset + x.utf8Size) limit hend
      rw [Nat.add_assoc, ← Utf8.size_cons] at hmore
      exact .blank rfl hx (hstep ▸ hmore)
  | @comment c c' n hn _ ih =>
    obtain ⟨between, hsplit, hoffset, hgap⟩ := ih hsettled
    have hdrop : c.rest.drop n = between ++ c'.rest := hsplit
    refine ⟨c.rest.take n ++ between, ?_, ?_, fun tail offset limit hend ↦ ?_⟩
    · rw [append_assoc, ← hdrop, take_append_drop]
    · rw [hoffset, Utf8.size_append, ← Nat.add_assoc]
      rfl
    · -- What follows the comment is the rest of the gap, or else what the gap leads to.
      have hsame : (between ++ tail).head? = (c.rest.drop n).head? ∨
          ∃ x ∈ (c.rest.drop n).head?, isBlank x = false := by
        rw [hdrop]
        cases between with
        | cons y ys => exact .inl rfl
        | nil =>
          cases hrest : c'.rest with
          | nil => exact .inl (by rw [hend hrest])
          | cons y ys => exact .inr ⟨y, rfl, hsettled y (by rw [hrest]; rfl)⟩
      obtain ⟨hle, hlength⟩ := commentLength?_append hn hsame
      have hstep : (Cursor.mk (c.rest.take n ++ (between ++ tail)) offset limit).advance n
          = ⟨between ++ tail, offset + size (c.rest.take n), limit⟩ := by
        have hn : n = (c.rest.take n).length := (length_take_of_le hle).symm
        simp only [advance]
        rw [take_left' hn.symm, drop_left' hn.symm]
      have hmore := hgap tail (offset + size (c.rest.take n)) limit hend
      rw [Nat.add_assoc, ← Utf8.size_append] at hmore
      rw [append_assoc]
      exact .comment hlength (hstep ▸ hmore)

theorem IsSettled.not_isBlank (h : c.IsSettled) : ∀ x ∈ c.rest.head?, isBlank x = false := by
  intro x hx
  cases hrest : c.rest with
  | nil => simp [hrest] at hx
  | cons y ys =>
    obtain rfl : y = x := by simpa [hrest] using hx
    refine Bool.eq_false_iff.2 fun hblank ↦ ?_
    have hlt := offset_lt_advance hrest Nat.one_pos
    have hle := (gap_skipBlanks (c.advance 1)).offset_le
    rw [← skipBlanks_of_isBlank hrest hblank, h.1] at hle
    omega

/-- A gap **does not leave** a place where none starts. -/
theorem IsSettled.eq_of_gap (h : c.IsSettled) (hgap : Gap c c') : c = c' := by
  cases hgap with
  | refl => rfl
  | blank hrest hx _ =>
    have hnot := h.not_isBlank _ (by rw [hrest]; rfl)
    simp [hx] at hnot
  | comment hn _ => simp [h.2] at hn

/-- A gap leads to **one place** where no gap starts. -/
theorem Gap.eq_of_isSettled (h : Gap c c') (h' : Gap c o) (hc' : c'.IsSettled) (ho : o.IsSettled) :
    c' = o := by
  induction h with
  | refl c => exact hc'.eq_of_gap h'
  | blank hrest hx h ih =>
    cases h' with
    | refl => exact (ho.eq_of_gap (.blank hrest hx h)).symm
    | blank _ _ h' => exact ih h' hc'
    | comment hn _ =>
      obtain ⟨-, xs, hslash⟩ := exists_of_commentLength? hn
      rw [hslash] at hrest
      obtain ⟨rfl, -⟩ := List.cons.inj hrest
      exact absurd hx (by decide)
  | comment hn h ih =>
    cases h' with
    | refl => exact (ho.eq_of_gap (.comment hn h)).symm
    | blank hrest hx _ =>
      obtain ⟨-, xs, hslash⟩ := exists_of_commentLength? hn
      rw [hslash] at hrest
      obtain ⟨rfl, -⟩ := List.cons.inj hrest
      exact absurd hx (by decide)
    | comment hn' h' =>
      obtain rfl := Option.some.inj (hn.symm.trans hn')
      exact ih h' hc'

theorem Gap.skipGap_eq (h : Gap c c') (hc : At cs c) (hc' : c'.IsSettled) : c.skipGap = c' :=
  c.gap_skipGap.eq_of_isSettled h hc.isSettled_skipGap hc'

end Cursor

/-! ### What is left of a text -/

/-- The characters that start at none of the bytes that are **gone**; the first one starts at
`pos`. -/
def uncovered (gone : Nat → Bool) (pos : Nat) (cs : List Char) : List Char :=
  ((located pos cs).filter fun q ↦ !gone q.1).map (·.2)

/-- Where a byte of a text comes to **lie** in what is left of it. -/
def landing (gone : Nat → Bool) (cs : List Char) (offset : Nat) : Nat :=
  size (((located 0 cs).filter fun q ↦ q.1 < offset && !gone q.1).map (·.2))

theorem uncovered_append (gone : Nat → Bool) (pos : Nat) (as bs : List Char) :
    uncovered gone pos (as ++ bs)
      = uncovered gone pos as ++ uncovered gone (pos + size as) bs := by
  simp only [uncovered, Utf8.located_append, filter_append, map_append]

theorem uncovered_eq_self {pos : Nat}
    (h : ∀ x, pos ≤ x → x < pos + size cs → gone x = false) : uncovered gone pos cs = cs := by
  rw [uncovered, filter_eq_self.2 fun q hq ↦ ?_, Utf8.map_snd_located]
  obtain ⟨hlow, hhigh⟩ := Utf8.bounds_of_mem_located hq
  simp [h q.1 hlow hhigh]

theorem uncovered_eq_nil {pos : Nat}
    (h : ∀ x, pos ≤ x → x < pos + size cs → gone x = true) : uncovered gone pos cs = [] := by
  rw [uncovered, filter_eq_nil_iff.2 fun q hq ↦ ?_, map_nil]
  obtain ⟨hlow, hhigh⟩ := Utf8.bounds_of_mem_located hq
  simp [h q.1 hlow hhigh]

theorem landing_eq (gone : Nat → Bool) (before after : List Char) :
    landing gone (before ++ after) (size before) = size (uncovered gone 0 before) := by
  have hafter : (located (size before) after).filter
      (fun q ↦ q.1 < size before && !gone q.1) = [] := by
    refine filter_eq_nil_iff.2 fun q hq ↦ ?_
    have := Utf8.bounds_of_mem_located hq
    simp only [Bool.and_eq_true, decide_eq_true_eq]
    omega
  have hbefore : (located 0 before).filter (fun q ↦ q.1 < size before && !gone q.1)
      = (located 0 before).filter fun q ↦ !gone q.1 := by
    refine filter_congr fun q hq ↦ ?_
    have := Utf8.bounds_of_mem_located hq
    have hlt : q.1 < size before := by omega
    simp [hlt]
  rw [landing, Utf8.located_append, filter_append, Nat.zero_add, hafter, hbefore,
    append_nil, uncovered]

namespace Cursor

/-- The place in **what is left** of a text that a place of the text comes to lie at. -/
def cut (gone : Nat → Bool) (cs : List Char) (c : Cursor) : Cursor :=
  ⟨uncovered gone c.offset c.rest, landing gone cs c.offset, size (uncovered gone 0 cs)⟩

theorem At.cut (h : At cs c) (gone : Nat → Bool) : At (uncovered gone 0 cs) (c.cut gone cs) := by
  obtain ⟨before, rfl, hoffset⟩ := h.split
  refine ⟨rfl, uncovered gone 0 before, ?_, ?_⟩
  · rw [uncovered_append, Nat.zero_add, ← hoffset]
    rfl
  · show landing gone _ c.offset = _
    rw [hoffset, landing_eq]

theorem cut_ofChars (gone : Nat → Bool) (cs : List Char) :
    (ofChars cs).cut gone cs = ofChars (uncovered gone 0 cs) :=
  ((at_ofChars cs).cut gone).eq (at_ofChars _) (landing_eq gone [] cs)

/-- How much of what lies between two places **is left**. -/
theorem At.landing_eq {between : List Char} (hc : At cs c) (hrest : c.rest = between ++ c'.rest)
    (hoffset : c'.offset = c.offset + size between) (gone : Nat → Bool) :
    landing gone cs c'.offset
      = landing gone cs c.offset + size (uncovered gone c.offset between) := by
  obtain ⟨before, hcs, hbefore⟩ := hc.split
  have hcs' : cs = (before ++ between) ++ c'.rest := by rw [hcs, hrest, append_assoc]
  have hafter : c'.offset = size (before ++ between) := by rw [hoffset, hbefore, Utf8.size_append]
  rw [hafter, hcs', ScriptTree.landing_eq, ← hcs', hbefore, hcs, ScriptTree.landing_eq,
    uncovered_append, Utf8.size_append, Nat.zero_add]

/-- A gap of which nothing is gone is a gap in **what is left**. -/
theorem Gap.cut (h : Gap c c') (hc : At cs c) (hsettled : c'.IsSettled)
    (hkept : ∀ x, c.offset ≤ x → x < c'.offset → gone x = false) :
    Gap (c.cut gone cs) (c'.cut gone cs) := by
  obtain ⟨between, hrest, hoffset, hgap⟩ := h.transfer hsettled.not_isBlank
  have hlanding := hc.landing_eq hrest hoffset gone
  have hleft : uncovered gone c.offset between = between :=
    uncovered_eq_self fun x hlow hhigh ↦ hkept x hlow (by omega)
  have hmoved := hgap (uncovered gone c'.offset c'.rest) (landing gone cs c.offset)
    (size (uncovered gone 0 cs)) fun hnil ↦ by rw [hnil]; rfl
  rw [hleft] at hlanding
  unfold Cursor.cut
  rwa [hrest, uncovered_append, hleft, ← hoffset, hlanding]

/-- Places between which everything is gone **come together**. -/
theorem At.cut_eq (hc : At cs c) (hc' : At cs c') (hle : c.offset ≤ c'.offset)
    (hgone : ∀ x, c.offset ≤ x → x < c'.offset → gone x = true) :
    c.cut gone cs = c'.cut gone cs := by
  obtain ⟨between, hrest, hoffset⟩ := hc.exists_between hc' hle
  have hlanding := hc.landing_eq hrest hoffset gone
  refine (hc.cut gone).eq (hc'.cut gone) ?_
  rw [uncovered_eq_nil fun x hlow hhigh ↦ hgone x hlow (by omega)] at hlanding
  exact hlanding.symm

theorem isSettled_of_rest_eq_nil (h : c.rest = []) : c.IsSettled :=
  ⟨by simp [skipBlanks, h], by rw [h]; rfl⟩

end Cursor

/-! ### Reading what is left -/

/-- What is **read at a byte** of a script: a statement that starts there, without faults. -/
def ReadsAt (d : Dialect) (cs : List Char) (start : Nat) (n : Node) : Prop :=
  ∃ c, topLevel d cs.length ((Cursor.ofChars cs).goTo start) = some ([n], c) ∧
    n.hasFault = false ∧ n.start = start

theorem Cursor.At.goTo_ofChars (hc : c.At cs) : (Cursor.ofChars cs).goTo c.offset = c := by
  obtain ⟨hat, hoffset⟩ := (Cursor.at_ofChars cs).goTo hc.isBoundary (Nat.zero_le _)
  exact hat.eq hc hoffset

theorem Cursor.At.goTo_at (hc : c.At cs) (stop : Nat) : (c.goTo stop).At cs := by
  have hgo : ∀ (rest before : List Char), cs = before ++ rest →
      (Cursor.goTo.go stop c rest (size before)).At cs := by
    intro rest
    induction rest with
    | nil => exact fun before hcs ↦ ⟨hc.limit, before, hcs, rfl⟩
    | cons x xs ih =>
      intro before hcs
      unfold Cursor.goTo.go
      split
      · exact ⟨hc.limit, before, hcs, rfl⟩
      · have hnext := ih (before ++ [x]) (by rw [hcs, append_assoc]; rfl)
        rwa [Utf8.size_append, Utf8.size_cons, Utf8.size_nil, Nat.add_zero] at hnext
  obtain ⟨before, hcs, hoffset⟩ := hc.split
  rw [Cursor.goTo, hoffset]
  exact hgo c.rest before hcs

/-- A statement of a kind that ends with a semicolon is **closed** where it ends. -/
theorem ReadsAt.closed {start : Nat} (h : ReadsAt d cs start n) (hkind : n.kind ∈ Rule.endedKinds) :
    Rule.Closed d n.children ((Cursor.ofChars cs).goTo n.stop) := by
  obtain ⟨c, hread, -, -⟩ := h
  have hn := isStatement_of_topLevel hread
  have hat := (laid_topLevel ((Cursor.at_ofChars cs).goTo_at start) hread).1
  rw [hn.stop_eq, hat.goTo_ofChars]
  exact hn.closed hkind

theorem Reads.offset_le_start (h : Reads d length c ns) (hc : c.At cs) :
    ∀ n ∈ ns, c.skipGap.offset ≤ n.start := by
  induction h with
  | done => simp
  | next hread _ _ ih =>
    have hlt := offset_lt_of_topLevel hc hread
    refine forall_mem_cons.2 ⟨?_, fun m hm ↦ ?_⟩
    · rw [(isStatement_of_topLevel hread).start_eq, hc.skipGap_skipGap]
    · have hle := ih (isAfter_of_topLevel hc hread).at_text m hm
      have hskip := (Cursor.gap_skipGap _).offset_le.trans hle
      omega

/-- Where a statement starts, **no gap** does. -/
theorem isSettled_of_topLevel (hc : c.At cs) (h : topLevel d length c = some ([n], c'))
    (hstart : n.start = c.offset) : c.IsSettled := by
  have hsame : c.skipGap = c :=
    (c.gap_skipGap.at hc).eq hc ((isStatement_of_topLevel h).start_eq.symm.trans hstart)
  rw [← hsame]
  exact hc.isSettled_skipGap

/-- After a gap, statements are read of which the **first** takes up some range exactly when a
statement is read there and the others are read from its end on. -/
theorem reads_cons_iff {ranges : List (Nat × Nat)} (ho : o.At cs) (hgap : o.Gap c)
    (hc' : c'.At cs) :
    (∃ ns, Reads d cs.length o ns ∧ ns.map (fun n ↦ (n.start, n.stop))
        = (c.offset, c'.offset) :: ranges) ↔
      (∃ n, ReadsAt d cs c.offset n ∧ n.stop = c'.offset) ∧
        ∃ ns, Reads d cs.length c' ns ∧ ns.map (fun n ↦ (n.start, n.stop)) = ranges := by
  have hc := hgap.at ho
  have hends {n : Node} {o' : Cursor} (hread : topLevel d cs.length c = some ([n], o'))
      (hstop : n.stop = c'.offset) : o' = c' :=
    (laid_topLevel hc hread).1.eq hc' ((isStatement_of_topLevel hread).stop_eq.symm.trans hstop)
  constructor
  · rintro ⟨ns, hreads, hranges⟩
    cases hreads with
    | done => cases hranges
    | @next _ o' n ns hread hfault hreads =>
      obtain ⟨hrange, hranges⟩ := List.cons.inj hranges
      obtain ⟨hstart, hstop⟩ := Prod.mk.inj hrange
      have hplace : o.skipGap = c := by
        refine (o.gap_skipGap.at ho).eq hc ?_
        rw [← hstart, (isStatement_of_topLevel hread).start_eq, ho.skipGap_skipGap]
      rw [hplace] at hread
      refine ⟨⟨n, ⟨o', by rw [hc.goTo_ofChars, hread], hfault, hstart⟩, hstop⟩, ns, ?_, hranges⟩
      rwa [← hends hread hstop]
  · rintro ⟨⟨n, ⟨o', hread, hfault, hstart⟩, hstop⟩, ns, hreads, hranges⟩
    rw [hc.goTo_ofChars] at hread
    have hplace := hgap.skipGap_eq ho (isSettled_of_topLevel hc hread hstart)
    refine ⟨n :: ns, .next (by rw [hplace, hread]) hfault ?_, ?_⟩
    · rwa [hends hread hstop]
    · rw [map_cons, hranges, hstart, hstop]

/-- What is left is read as the statements **that are left** exactly when each of them is read as it
stood. The induction is on the statements of the script; the place `o` in what is left stands after
the last statement that was read, and the gaps around what was cut out since then lead from there to
where the script is read on. -/
theorem reads_cut_iff (h : Reads d length c ns) (hc : c.At cs)
    (hgone : ∀ x, c.offset ≤ x →
      (gone x = true ↔ ∃ n ∈ ns, p n = true ∧ n.start ≤ x ∧ x < n.stop))
    (ho : o.At (uncovered gone 0 cs)) (hgap : o.Gap (c.cut gone cs)) :
    (∃ ms, Reads d' (uncovered gone 0 cs).length o ms ∧ ms.map (fun m ↦ (m.start, m.stop))
        = (ns.filter (!p ·)).map fun n ↦ (landing gone cs n.start, landing gone cs n.stop)) ↔
      ∀ n ∈ ns, p n = false → ∃ m, ReadsAt d' (uncovered gone 0 cs) (landing gone cs n.start) m ∧
        m.stop = landing gone cs n.stop := by
  induction h generalizing o with
  | @done c hnil =>
    refine ⟨fun _ ↦ by simp, fun _ ↦ ⟨[], .done ?_, rfl⟩⟩
    have hkept (x) (hlow : c.offset ≤ x) : gone x = false :=
      Bool.eq_false_iff.2 fun hx ↦ by simpa using (hgone x hlow).1 hx
    have hend := hgap.trans
      (c.gap_skipGap.cut hc hc.isSettled_skipGap fun x hlow _ ↦ hkept x hlow)
    have hleft : (c.skipGap.cut gone cs).rest = [] := by
      show uncovered gone _ c.skipGap.rest = []
      rw [hnil]
      rfl
    rw [hend.skipGap_eq ho (Cursor.isSettled_of_rest_eq_nil hleft), hleft]
  | @next c c' n ns hread hfault hreads ih =>
    have hskip := c.gap_skipGap.at hc
    have hafter := (isAfter_of_topLevel hc hread).at_text
    have hlt := offset_lt_of_topLevel hc hread
    have hle := c.gap_skipGap.offset_le
    have hn := isStatement_of_topLevel hread
    have hstart : n.start = c.skipGap.offset := by rw [hn.start_eq, hc.skipGap_skipGap]
    have hstop := hn.stop_eq
    -- Nothing before the statement is gone.
    have hcome : o.Gap (c.skipGap.cut gone cs) := by
      refine hgap.trans (c.gap_skipGap.cut hc hc.isSettled_skipGap fun x hlow hhigh ↦ ?_)
      refine Bool.eq_false_iff.2 fun hx ↦ ?_
      obtain ⟨m, hm, -, hm', -⟩ := (hgone x hlow).1 hx
      have := (Reads.next hread hfault hreads).offset_le_start hc m hm
      omega
    have hgone' (x) (hx : c'.offset ≤ x) :
        gone x = true ↔ ∃ m ∈ ns, p m = true ∧ m.start ≤ x ∧ x < m.stop := by
      rw [hgone x (by omega), exists_mem_cons_iff]
      exact or_iff_right fun hfirst ↦ by omega
    cases hp : p n with
    | true =>
      -- The statement is gone, so the gap goes on.
      have htogether : c.skipGap.cut gone cs = c'.cut gone cs := by
        refine hskip.cut_eq hafter (by omega) fun x hlow hhigh ↦ ?_
        exact (hgone x (by omega)).2 ⟨n, mem_cons_self, hp, by omega, by omega⟩
      rw [htogether] at hcome
      rw [filter_cons_of_neg (by simp [hp]), ih hafter hgone' ho hcome, forall_mem_cons]
      exact (and_iff_right fun hnot ↦ by simp [hp] at hnot).symm
    | false =>
      rw [filter_cons_of_pos (by simp [hp]), map_cons, forall_mem_cons, hstart,
        hstop, ← ih hafter hgone' (hafter.cut gone) (.refl _)]
      refine (reads_cons_iff ho hcome (hafter.cut gone)).trans (and_congr_left fun _ ↦ ?_)
      exact ⟨fun hfirst _ ↦ hfirst, fun hfirst ↦ hfirst hp⟩

end ScriptTree
