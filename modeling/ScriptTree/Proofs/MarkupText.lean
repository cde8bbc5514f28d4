import ScriptTree.Proofs.Path
import ScriptTree.Transform.Markup
import Mathlib.Data.List.DropRight
import Mathlib.Tactic.Common

/-!
# Text between tags

The usual rule for text in markup speaks of its lines only. Tabs count as spaces, a line loses the
spaces that face another line, lines with nothing left are dropped, and the others are joined by
single spaces. `standardText` says so one step after the other, without positions in the text.

`cleanText` does not join. It puts a space after each line that is left unless it is the last
**filled** line, the last with more than spaces and tabs on it. A blank line that faces another line
has nothing left, so the two agree as soon as there are two lines. A line that is alone faces no
other one and keeps its spaces, and if it is blank the text has no filled line. So a run of spaces
and tabs comes out with one space too many, and nothing else does.

## Main results

* `lines_eq_brokenLines`: where lines end.
* `lastFilled?_append_cons`: which line is the last filled one.
* `cleanText_exactly`: how the two rules differ.
-/

namespace ScriptTree

open List

namespace Transform

/-! ### The usual rule -/

/-- Whether a code point ends a line. -/
def breaksLine (c : CodePoint) : Bool := c = .scalar '\n' ∨ c = .scalar '\r'

/-- The **lines** of a text: a carriage return with a line feed, or one of the two alone, ends a
line. -/
def brokenLines : Text → List Text
  | [] => [[]]
  | .scalar '\r' :: .scalar '\n' :: cs => [] :: brokenLines cs
  | c :: cs => if breaksLine c then [] :: brokenLines cs else (brokenLines cs).modifyHead (c :: ·)

/-- A code point, with a space for a tab. -/
def spaceForTab (c : CodePoint) : CodePoint := if c = .scalar '\t' then .scalar ' ' else c

/-- A function on every line **but the first**. -/
def onLaterLines (f : Text → Text) : List Text → List Text
  | [] => []
  | line :: rest => line :: rest.map f

/-- A function on every line **but the last**. -/
def onEarlierLines (f : Text → Text) : List Text → List Text
  | [] => []
  | [line] => [line]
  | line :: next :: rest => f line :: onEarlierLines f (next :: rest)

/-- The lines of a text with their tabs made spaces, without spaces at the ends that face another
line. -/
def trimmedLines (ls : List Text) : List Text :=
  onEarlierLines (Text.dropEnd (· = .scalar ' '))
    (onLaterLines (Text.dropStart (· = .scalar ' ')) (ls.map fun line ↦ line.map spaceForTab))

/-- The **usual rule** for text between tags: of the trimmed lines those that are not empty, with
one space between two of them. -/
def standardText (t : Text) : Text :=
  Text.join " " ((trimmedLines (brokenLines t)).filter (!·.isEmpty))

/-- Whether a text is a **run** of spaces and tabs, of at least one. -/
def isBlankRun (t : Text) : Bool := !t.isEmpty && t.all isPadding

/-! ### Lines -/

theorem splitOn_cons_of_ne {sep c : CodePoint} (h : c ≠ sep) (cs : Text) :
    Text.splitOn sep (c :: cs) = (Text.splitOn sep cs).modifyHead (c :: ·) := by
  rw [Text.splitOn, if_neg h]
  cases hs : Text.splitOn sep cs with
  | nil => exact absurd hs (Text.splitOn_ne_nil sep cs)
  | cons piece rest => rfl

/-- To write every line end as a line feed and to split there is to split **at line ends**. -/
theorem lines_eq_brokenLines (t : Text) : lines t = brokenLines t := by
  show Text.splitOn (.scalar '\n') t.unifyLineEnds = brokenLines t
  fun_induction brokenLines t with
  | case1 => rfl
  | case2 cs ih => rw [Text.unifyLineEnds, Text.splitOn, if_pos rfl, ih]
  | case3 c cs hpair hend ih =>
    -- A carriage return that no line feed follows, or a line feed.
    have hunify : Text.unifyLineEnds (c :: cs) = .scalar '\n' :: Text.unifyLineEnds cs := by
      rcases of_decide_eq_true hend with rfl | rfl
      · rw [Text.unifyLineEnds]
        all_goals simp
      · rw [Text.unifyLineEnds]
        exact fun rest hrest ↦ hpair rest rfl hrest
    rw [hunify, Text.splitOn, if_pos rfl, ih]
  | case4 c cs hpair hend ih =>
    have hne : c ≠ .scalar '\n' ∧ c ≠ .scalar '\r' := by simpa [breaksLine] using hend
    have hunify : Text.unifyLineEnds (c :: cs) = c :: Text.unifyLineEnds cs := by
      rw [Text.unifyLineEnds]
      · exact fun rest hc _ ↦ hne.2 hc
      · exact fun hc ↦ hne.2 hc
    rw [hunify, splitOn_cons_of_ne hne.1, ih]

/-- A text **without line ends** is one line. -/
theorem brokenLines_of_endless {t : Text} (h : t.all (!breaksLine ·) = true) :
    brokenLines t = [t] := by
  fun_induction brokenLines t with
  | case1 => rfl
  | case2 cs ih => simp [breaksLine] at h
  | case3 c cs hpair hend ih => simp [hend] at h
  | case4 c cs hpair hend ih =>
    rw [all_cons, Bool.and_eq_true] at h
    rw [ih h.2, modifyHead_cons]

/-- A text **with a line end** has two lines or more. -/
theorem two_le_length_brokenLines {t : Text} (h : t.all (!breaksLine ·) = false) :
    2 ≤ (brokenLines t).length := by
  have hpos (cs : Text) : 0 < (brokenLines cs).length := by
    rw [← lines_eq_brokenLines, length_pos_iff]
    exact Text.splitOn_ne_nil _ _
  fun_induction brokenLines t with
  | case1 => cases h
  | case2 cs ih => exact Nat.succ_le_succ (hpos cs)
  | case3 c cs hpair hend ih => exact Nat.succ_le_succ (hpos cs)
  | case4 c cs hpair hend ih =>
    rw [length_modifyHead]
    exact ih (by simpa [hend] using h)

/-! ### Trimmed lines -/

theorem trimLine_eq (line : Text) (first last : Bool) :
    trimLine line first last =
      if last then if first then line.map spaceForTab
        else Text.dropStart (· = .scalar ' ') (line.map spaceForTab)
      else Text.dropEnd (· = .scalar ' ') (if first then line.map spaceForTab
        else Text.dropStart (· = .scalar ' ') (line.map spaceForTab)) := rfl

/-- The lines **after the first**, from some position on, as they are trimmed among all lines. -/
theorem map_trimLine_later (ls : List Text) {k : Nat} (hk : 0 < k) :
    (ls.zipIdx k).map (fun item ↦ trimLine item.1 (item.2 == 0) (item.2 + 1 == k + ls.length))
      = onEarlierLines (Text.dropEnd (· = .scalar ' '))
          (ls.map fun line ↦ Text.dropStart (· = .scalar ' ') (line.map spaceForTab)) := by
  induction ls generalizing k with
  | nil => rfl
  | cons line rest ih =>
    have hfirst : (k == 0) = false := beq_false_of_ne (by omega)
    have hrest := ih (k := k + 1) (by omega)
    rw [zipIdx_cons, map_cons, length_cons, ← Nat.add_assoc, Nat.add_right_comm,
      hrest]
    cases rest with
    | nil => simp [trimLine_eq, onEarlierLines, hfirst]
    | cons next rest => simp [trimLine_eq, onEarlierLines, hfirst]

/-- Lines are trimmed by their **positions** just as by the lines that they face. -/
theorem map_trimLine (ls : List Text) :
    ls.zipIdx.map (fun item ↦ trimLine item.1 (item.2 == 0) (item.2 + 1 == ls.length))
      = trimmedLines ls := by
  cases ls with
  | nil => rfl
  | cons line rest =>
    have hrest := map_trimLine_later rest (k := 1) (by omega)
    rw [zipIdx_cons, map_cons, length_cons, Nat.add_comm rest.length,
      hrest]
    cases rest with
    | nil => simp [trimLine_eq, trimmedLines, onEarlierLines, onLaterLines]
    | cons next rest =>
      simp [trimLine_eq, trimmedLines, onEarlierLines, onLaterLines, Function.comp_def]

theorem dropStart_eq_nil_iff {p : CodePoint → Bool} {t : Text} :
    t.dropStart p = [] ↔ ∀ c ∈ t, p c = true :=
  dropWhile_eq_nil_iff

theorem dropEnd_eq_nil_iff {p : CodePoint → Bool} {t : Text} :
    t.dropEnd p = [] ↔ ∀ c ∈ t, p c = true :=
  rdropWhile_eq_nil_iff

/-- A text is of one kind throughout when what is left without its **start** of that kind is. -/
theorem forall_mem_dropStart_iff {p : CodePoint → Bool} {t : Text} :
    (∀ c ∈ t.dropStart p, p c = true) ↔ ∀ c ∈ t, p c = true := by
  refine ⟨fun h c hc ↦ ?_, fun h c hc ↦ h c ((dropWhile_suffix p).subset hc)⟩
  rw [← takeWhile_append_dropWhile (p := p) (l := t)] at hc
  rcases mem_append.1 hc with hc | hc
  · exact mem_takeWhile_imp hc
  · exact h c hc

/-- A line that faces another one is trimmed **to nothing** exactly when it is not filled. -/
theorem trimLine_eq_nil_iff {line : Text} {first last : Bool} (h : first = false ∨ last = false) :
    trimLine line first last = [] ↔ isFilled line = false := by
  have hspace (c : CodePoint) : spaceForTab c = .scalar ' ' ↔ isPadding c = true := by
    by_cases hc : c = .scalar '\t' <;> simp [spaceForTab, isPadding, hc]
  -- Filled lines are found before tabs are made spaces, lines with nothing left afterwards.
  have hpadded : (∀ c ∈ line.map spaceForTab, decide (c = .scalar ' ') = true) ↔
      isFilled line = false := by
    simp [isFilled, hspace]
  rw [trimLine_eq, ← hpadded]
  cases first <;> cases last <;> simp only [Bool.false_eq_true]
  · exact dropEnd_eq_nil_iff.trans forall_mem_dropStart_iff
  · exact dropStart_eq_nil_iff
  · exact dropEnd_eq_nil_iff
  · simp at h

/-! ### The last filled line -/

/-- The **last** number below a bound that satisfies a predicate. -/
theorem find?_reverse_range_eq_some_iff {p : Nat → Bool} {n i : Nat} :
    (List.range n).reverse.find? p = some i ↔
      i < n ∧ p i = true ∧ ∀ j, i < j → j < n → p j = false := by
  induction n with
  | zero => simp
  | succ n ih =>
    rw [range_succ, reverse_append, reverse_singleton, singleton_append]
    cases hn : p n with
    | true =>
      rw [find?_cons_of_pos hn, Option.some.injEq]
      constructor
      · rintro rfl
        exact ⟨by omega, hn, fun j hj hj' ↦ by omega⟩
      · rintro ⟨hi, -, hlast⟩
        by_contra hne
        have hfalse := hlast n (by omega) (by omega)
        rw [hn] at hfalse
        exact Bool.noConfusion hfalse
    | false =>
      rw [find?_cons_of_neg (by simp [hn]), ih]
      constructor
      · rintro ⟨hi, hp, hlast⟩
        refine ⟨by omega, hp, fun j hj hj' ↦ ?_⟩
        rcases Nat.lt_succ_iff_lt_or_eq.1 hj' with hj' | rfl
        · exact hlast j hj hj'
        · exact hn
      · rintro ⟨hi, hp, hlast⟩
        rcases Nat.lt_succ_iff_lt_or_eq.1 hi with hi | rfl
        · exact ⟨hi, hp, fun j hj hj' ↦ hlast j hj (by omega)⟩
        · rw [hn] at hp
          exact Bool.noConfusion hp

/-- A line is the **last filled** one when it is filled and none after it is. -/
theorem lastFilled?_append_cons (before : List Text) (line : Text) (after : List Text) :
    lastFilled? (before ++ line :: after) = some before.length ↔
      isFilled line = true ∧ ∀ other ∈ after, isFilled other = false := by
  have hhere : (before ++ line :: after)[before.length]? = some line := by simp
  have hthere (j : Nat) : (before ++ line :: after)[before.length + 1 + j]? = after[j]? := by
    rw [getElem?_append_right (by omega), Nat.add_assoc, Nat.add_sub_cancel_left,
      Nat.add_comm, getElem?_cons_succ]
  rw [lastFilled?, find?_reverse_range_eq_some_iff, hhere]
  constructor
  · rintro ⟨-, hfilled, hlast⟩
    refine ⟨hfilled, fun other hother ↦ ?_⟩
    obtain ⟨j, hj⟩ := getElem?_of_mem hother
    have hlt := (List.getElem?_eq_some_iff.1 hj).1
    have hnone := hlast (before.length + 1 + j) (by omega) (by simp; omega)
    rwa [hthere, hj, Option.any_some] at hnone
  · rintro ⟨hfilled, hlast⟩
    refine ⟨by simp, hfilled, fun j hj hlength ↦ ?_⟩
    obtain ⟨j, rfl⟩ := Nat.exists_eq_add_of_lt hj
    rw [Nat.add_right_comm, hthere]
    cases hother : after[j]? with
    | none => rfl
    | some other => exact hlast other (mem_of_getElem? hother)

/-! ### Putting lines together -/

/-- What becomes of a trimmed line: nothing, the line if it is marked as the last one, or the line
and a space. -/
def spacedOut (marked : Bool) (line : Text) : Text :=
  if line.isEmpty then [] else if marked then line else line ++ [.scalar ' ']

/-- If of some lines the last one that is not empty is **marked**, and no other, they are joined by
single spaces. -/
theorem flatMap_spacedOut {α : Type} {f : α → Text} {marked : α → Bool} (xs : List α)
    (h : ∀ before x after, xs = before ++ x :: after → f x ≠ [] →
      (marked x = true ↔ ∀ y ∈ after, f y = [])) :
    xs.flatMap (fun x ↦ spacedOut (marked x) (f x))
      = Text.join " " ((xs.map f).filter (!·.isEmpty)) := by
  induction xs with
  | nil => rfl
  | cons x rest ih =>
    have hrest := ih fun before y after heq ↦
      h (x :: before) y after (by rw [heq, cons_append])
    rw [flatMap_cons, hrest, map_cons]
    by_cases hx : f x = []
    · simp [spacedOut, hx]
    · have hmarked := h [] x rest rfl hx
      rw [filter_cons_of_pos (by simpa using hx)]
      cases hfilter : (rest.map f).filter (!·.isEmpty) with
      | nil =>
        have hlast : marked x = true := hmarked.2 (by simpa using hfilter)
        simp [spacedOut, hlast]
      | cons line lines =>
        have hnot : marked x = false := by
          rw [Bool.eq_false_iff, Ne, hmarked]
          intro hall
          rw [filter_eq_nil_iff.2 (by simpa using hall)] at hfilter
          cases hfilter
        rw [Text.join_cons_cons, spacedOut, if_neg (by simpa using hx), hnot, ← append_assoc]
        rfl

/-- With two lines or more `cleanText` follows the **usual rule**. -/
theorem cleanText_of_two {t : Text} (h : 2 ≤ (brokenLines t).length) :
    cleanText t = standardText t := by
  have hclean : cleanText t = (brokenLines t).zipIdx.flatMap fun item ↦
      spacedOut (lastFilled? (brokenLines t) == some item.2)
        (trimLine item.1 (item.2 == 0) (item.2 + 1 == (brokenLines t).length)) := by
    rw [← lines_eq_brokenLines]
    rfl
  have hempty (line : Text) (i : Nat) :
      trimLine line (i == 0) (i + 1 == (brokenLines t).length) = [] ↔ isFilled line = false := by
    refine trimLine_eq_nil_iff ?_
    rcases i with - | i
    · exact .inr (beq_false_of_ne (by omega))
    · exact .inl rfl
  rw [hclean, flatMap_spacedOut, map_trimLine, standardText]
  -- It is left that the last line that is not trimmed to nothing is the last filled one.
  intro before x after heq hne
  obtain ⟨earlier, rest, hls, rfl, hrest⟩ := zipIdx_eq_append_iff.1 heq
  obtain ⟨line, later, rfl, rfl, rfl⟩ := zipIdx_eq_cons_iff.1 hrest.symm
  have hfilled : isFilled line = true := by simpa [hempty] using hne
  rw [beq_iff_eq, hls, Nat.zero_add, lastFilled?_append_cons, ← hls]
  simp only [hempty, hfilled, true_and]
  conv_lhs => rw [← zipIdx_map_fst (earlier.length + 1) later, forall_mem_map]

/-- A text **without line ends** loses only its tabs, but a run of spaces and tabs gains a space. -/
theorem cleanText_of_endless {t : Text} (h : t.all (!breaksLine ·) = true) :
    cleanText t = t.map spaceForTab ++ if isBlankRun t then [.scalar ' '] else [] := by
  have hclean : cleanText t = spacedOut (lastFilled? [t] == some 0) (t.map spaceForTab) := by
    have hlines : lines t = [t] := (lines_eq_brokenLines t).trans (brokenLines_of_endless h)
    rw [cleanText, hlines]
    exact append_nil _
  have hmarked : (lastFilled? [t] == some 0) = isFilled t := by
    have hlast := lastFilled?_append_cons [] t []
    rw [Bool.eq_iff_iff]
    simpa using hlast
  have hpadded : t.all isPadding = !isFilled t := (Bool.not_not _).symm
  rw [hclean, hmarked, isBlankRun, hpadded]
  cases t with
  | nil => rfl
  | cons c cs => cases hfilled : isFilled (c :: cs) <;> simp [spacedOut]

/-- Of a text without line ends the usual rule changes **only the tabs**. -/
theorem standardText_of_endless {t : Text} (h : t.all (!breaksLine ·) = true) :
    standardText t = t.map spaceForTab := by
  rw [standardText, brokenLines_of_endless h]
  cases t with
  | nil => rfl
  | cons c cs => simp [trimmedLines, onLaterLines, onEarlierLines]

theorem isBlankRun_of_break {t : Text} (h : t.all (!breaksLine ·) = false) :
    isBlankRun t = false := by
  obtain ⟨c, hc, hbreaks⟩ : ∃ c ∈ t, breaksLine c = true := by simpa using h
  have hpadding : isPadding c = false := by
    rcases of_decide_eq_true hbreaks with rfl | rfl <;> rfl
  rw [isBlankRun, all_eq_false.2 ⟨c, hc, by simp [hpadding]⟩, Bool.and_false]

/-- **How text between tags is trimmed.** Every text comes out as the usual rule has it, but for a
run of spaces and tabs, which gets one more space at its end. Of a text without line ends the usual
rule changes nothing but the tabs. -/
theorem cleanText_exactly (t : Text) :
    cleanText t = standardText t ++ (if isBlankRun t then [.scalar ' '] else []) ∧
      (t.all (!breaksLine ·) = true → standardText t = t.map spaceForTab) := by
  refine ⟨?_, standardText_of_endless⟩
  cases hbreaks : t.all (!breaksLine ·) with
  | true => rw [cleanText_of_endless hbreaks, standardText_of_endless hbreaks]
  | false =>
    rw [cleanText_of_two (two_le_length_brokenLines hbreaks), isBlankRun_of_break hbreaks]
    exact (List.append_nil _).symm

theorem cleanText_tabbed :
    ("a\tb" : Text).all (!breaksLine ·) = true ∧ isBlankRun "a\tb" = false ∧
      cleanText "a\tb" = standardText "a\tb" ∧ standardText "a\tb" = "a b" := by
  have hendless : ("a\tb" : Text).all (!breaksLine ·) = true := by decide
  have hrun : isBlankRun "a\tb" = false := by decide
  obtain ⟨hclean, hstandard⟩ := cleanText_exactly "a\tb"
  rw [hrun] at hclean
  exact ⟨hendless, hrun, hclean.trans (List.append_nil _), hstandard hendless⟩

/-- A space between two tags comes out as **two spaces**. -/
theorem cleanText_space : cleanText " " ≠ standardText " " := by decide

end Transform

end ScriptTree
