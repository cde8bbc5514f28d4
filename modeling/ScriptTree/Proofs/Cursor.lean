import Mathlib.Data.List.TakeWhile
import ScriptTree.Grammar.Cursor
import ScriptTree.Proofs.Placement

/-!
# Places in a text

A cursor **stands in a text** when what is left to read is the end of the text from its byte on.
Reading only ever moves such a cursor on. Between two tokens it moves over a **gap**: blanks and
whole comments, one after the other. At each place at most one step over a gap is possible, so the
comments that are looked for in a gap later are those that were passed over.

## Main results

* `Cursor.gap_skipGap`: the way to the next token is a gap.
* `Cursor.skipGap_skipGap`: the next token of the next token is that token.
* `Cursor.placedIn_commentsUntil`: the comments of a gap lie in it.
-/

namespace ScriptTree

open List
open Utf8 (IsBoundary size)

namespace Cursor

variable {cs : List Char} {c c' c'' : Cursor}

/-! ### Standing in a text -/

/-- A cursor that **stands in a text**. -/
structure At (cs : List Char) (c : Cursor) : Prop where
  limit : c.limit = size cs
  split : ∃ before, cs = before ++ c.rest ∧ c.offset = size before

theorem at_ofChars (cs : List Char) : At cs (ofChars cs) := ⟨rfl, [], rfl, rfl⟩

theorem At.advance (h : At cs c) (n : Nat) : At cs (c.advance n) := by
  obtain ⟨before, hcs, hoffset⟩ := h.split
  refine ⟨h.limit, before ++ c.rest.take n, ?_, ?_⟩
  · rw [append_assoc]
    simp only [Cursor.advance, take_append_drop]
    exact hcs
  · simp [Cursor.advance, hoffset]

theorem At.isBoundary (h : At cs c) : IsBoundary cs c.offset := by
  obtain ⟨before, hcs, hoffset⟩ := h.split
  exact ⟨before, c.rest, hcs, hoffset⟩

/-- At each byte stands at most one cursor. -/
theorem At.eq (h : At cs c) (h' : At cs c') (hoffset : c.offset = c'.offset) : c = c' := by
  obtain ⟨before, hcs, hbefore⟩ := h.split
  obtain ⟨before', hcs', hbefore'⟩ := h'.split
  have hsize : size before = size before' := by rw [← hbefore, hoffset, hbefore']
  have hfront : before <+: before' :=
    Utf8.prefix_of_size_le ⟨_, hcs.symm⟩ ⟨_, hcs'.symm⟩ (Nat.le_of_eq hsize)
  have hback : before' <+: before :=
    Utf8.prefix_of_size_le ⟨_, hcs'.symm⟩ ⟨_, hcs.symm⟩ (Nat.le_of_eq hsize.symm)
  obtain rfl : before = before' := hfront.eq_of_length_le hback.length_le
  have hlimit : c.limit = c'.limit := h.limit.trans h'.limit.symm
  cases c
  cases c'
  simp_all

/-- The bytes that are left. -/
theorem At.size_rest (h : At cs c) : c.offset + size c.rest = c.limit := by
  obtain ⟨before, hcs, hoffset⟩ := h.split
  rw [h.limit, hoffset, ← Utf8.size_append, ← hcs]

@[simp] theorem advance_zero (c : Cursor) : c.advance 0 = c := by simp [advance]

theorem advance_advance (c : Cursor) (m n : Nat) : (c.advance m).advance n = c.advance (m + n) := by
  simp only [advance, drop_drop, take_add, Utf8.size_append, Nat.add_assoc]

theorem offset_le_advance (c : Cursor) (n : Nat) : c.offset ≤ (c.advance n).offset :=
  Nat.le_add_right _ _

/-- Going on over a mark that stands there. -/
theorem offset_advance_of_isPrefixOf {p : String} (h : p.toList.isPrefixOf c.rest = true) :
    (c.advance p.length).offset = c.offset + size p.toList := by
  obtain ⟨after, hafter⟩ := List.isPrefixOf_iff_prefix.1 h
  rw [advance, ← hafter, ← String.length_toList, take_left]

/-! ### Gaps -/

/-- Two places with only **blanks and comments** between them. -/
inductive Gap : Cursor → Cursor → Prop
  | refl (c : Cursor) : Gap c c
  | blank {c c' : Cursor} {x : Char} {xs : List Char} (hrest : c.rest = x :: xs)
      (hx : isBlank x = true) (h : Gap (c.advance 1) c') : Gap c c'
  | comment {c c' : Cursor} {n : Nat} (hn : commentLength? c.rest = some n)
      (h : Gap (c.advance n) c') : Gap c c'

theorem Gap.trans (h : Gap c c') (h' : Gap c' c'') : Gap c c'' := by
  induction h with
  | refl => exact h'
  | blank hrest hx _ ih => exact .blank hrest hx (ih h')
  | comment hn _ ih => exact .comment hn (ih h')

theorem Gap.at (h : Gap c c') (hc : At cs c) : At cs c' := by
  induction h with
  | refl => exact hc
  | blank _ _ _ ih => exact ih (hc.advance 1)
  | comment _ _ ih => exact ih (hc.advance _)

theorem Gap.offset_le (h : Gap c c') : c.offset ≤ c'.offset := by
  induction h with
  | refl => exact Nat.le_refl _
  | blank _ _ _ ih => exact Nat.le_trans (offset_le_advance _ _) ih
  | comment _ _ ih => exact Nat.le_trans (offset_le_advance _ _) ih

/-- Going on over blanks is a gap. -/
theorem gap_advance {n : Nat} (h : ∀ x ∈ c.rest.take n, isBlank x = true) :
    Gap c (c.advance n) := by
  induction n generalizing c with
  | zero =>
    exact .refl c
  | succ n ih =>
    rw [Nat.add_comm, ← advance_advance]
    cases hrest : c.rest with
    | nil =>
      have hstay : c.advance 1 = c := by
        cases c
        simp_all [advance]
      rw [hstay]
      exact ih (by simp [hrest])
    | cons x xs =>
      rw [hrest] at h
      refine .blank hrest (h x (by simp)) (ih fun y hy ↦ h y ?_)
      have hdrop : (c.advance 1).rest = xs := by simp [advance, hrest]
      rw [hdrop] at hy
      exact mem_cons_of_mem _ hy

theorem take_length_takeWhile {α : Type} (p : α → Bool) (l : List α) :
    l.take (l.takeWhile p).length = l.takeWhile p := by
  induction l with
  | nil => rfl
  | cons x xs ih => by_cases hx : p x = true <;> simp_all

theorem gap_skipBlanks (c : Cursor) : Gap c c.skipBlanks := by
  refine gap_advance fun x hx ↦ ?_
  rw [take_length_takeWhile] at hx
  exact mem_takeWhile_imp hx

theorem gap_skipGapFrom (fuel : Nat) (c : Cursor) : Gap c (skipGapFrom fuel c) := by
  induction fuel generalizing c with
  | zero => exact .refl c
  | succ fuel ih =>
    unfold skipGapFrom
    simp only
    split
    · next n hn => exact (gap_skipBlanks c).trans (.comment hn (ih _))
    · exact gap_skipBlanks c

/-- **The way to the next token** is a gap. -/
theorem gap_skipGap (c : Cursor) : Gap c c.skipGap := gap_skipGapFrom _ c

/-! ### Passing over everything -/

/-- A comment starts with a slash. -/
theorem exists_of_commentLength? {l : List Char} {n : Nat} (h : commentLength? l = some n) :
    2 ≤ n ∧ ∃ xs, l = '/' :: xs := by
  unfold commentLength? at h
  split at h
  · exact ⟨by simp only [Option.some.injEq] at h; omega, _, rfl⟩
  · obtain ⟨k, -, hk⟩ := Option.map_eq_some_iff.1 h
    exact ⟨by omega, _, rfl⟩
  · simp at h

theorem skipBlanks_of_notBlank {x : Char} {xs : List Char} (hrest : c.rest = x :: xs)
    (hx : isBlank x = false) : c.skipBlanks = c := by
  simp [skipBlanks, hrest, hx]

theorem skipBlanks_of_commentLength? {n : Nat} (h : commentLength? c.rest = some n) :
    c.skipBlanks = c := by
  obtain ⟨-, xs, hrest⟩ := exists_of_commentLength? h
  exact skipBlanks_of_notBlank hrest (by decide)

theorem skipBlanks_of_isBlank {x : Char} {xs : List Char} (hrest : c.rest = x :: xs)
    (hx : isBlank x = true) : c.skipBlanks = (c.advance 1).skipBlanks := by
  have hdrop : (c.advance 1).rest = xs := by simp [advance, hrest]
  rw [skipBlanks, skipBlanks, hdrop, hrest, takeWhile_cons_of_pos hx, length_cons,
    Nat.add_comm, advance_advance]

theorem skipBlanks_skipBlanks (c : Cursor) : c.skipBlanks.skipBlanks = c.skipBlanks := by
  have hnone : c.skipBlanks.rest.takeWhile isBlank = [] := by
    show (c.rest.drop (c.rest.takeWhile isBlank).length).takeWhile isBlank = []
    induction c.rest with
    | nil => rfl
    | cons x xs ih => by_cases hx : isBlank x = true <;> simp_all
  rw [skipBlanks, hnone]
  exact advance_zero _

/-- A place where no gap starts. -/
def IsSettled (c : Cursor) : Prop := c.skipBlanks = c ∧ commentLength? c.rest = none

theorem IsSettled.skipGap_eq (h : c.IsSettled) : c.skipGap = c := by
  unfold skipGap stepsLeft
  rw [skipGapFrom, h.1]
  simp only [h.2]

/-- A comment takes at least as many bytes as one character. -/
theorem offset_lt_advance {x : Char} {xs : List Char} {n : Nat} (hrest : c.rest = x :: xs)
    (hn : 0 < n) : c.offset < (c.advance n).offset := by
  cases n with
  | zero => omega
  | succ n =>
    have hx := x.utf8Size_pos
    simp only [advance, hrest, take_succ_cons, Utf8.size_cons]
    omega

/-- With more steps than bytes, everything is passed over. -/
theorem isSettled_skipGapFrom {fuel : Nat} (hc : At cs c) (h : c.limit < c.offset + fuel) :
    (skipGapFrom fuel c).IsSettled := by
  induction fuel generalizing c with
  | zero =>
    have := hc.size_rest
    omega
  | succ fuel ih =>
    unfold skipGapFrom
    simp only
    have hle := (gap_skipBlanks c).offset_le
    have hat := (gap_skipBlanks c).at hc
    split
    · next n hn =>
      obtain ⟨htwo, xs, hrest⟩ := exists_of_commentLength? hn
      have hlt := offset_lt_advance hrest (n := n) (by omega)
      have hlimit : (c.skipBlanks.advance n).limit = c.limit := rfl
      exact ih (hat.advance n) (by omega)
    · next hn => exact ⟨skipBlanks_skipBlanks c, hn⟩

theorem At.isSettled_skipGap (hc : At cs c) : c.skipGap.IsSettled := by
  refine isSettled_skipGapFrom hc ?_
  simp only [stepsLeft]
  omega

/-- The next token **of the next token** is that token. -/
theorem At.skipGap_skipGap (hc : At cs c) : c.skipGap.skipGap = c.skipGap :=
  hc.isSettled_skipGap.skipGap_eq

end Cursor

/-! ### Gaps between bytes -/

/-- Two bytes of a text with only **blanks and comments** between them. -/
def GapTo (cs : List Char) (a b : Nat) : Prop :=
  ∃ c c' : Cursor, c.At cs ∧ c.offset = a ∧ c'.offset = b ∧ c.Gap c'

namespace GapTo

variable {cs : List Char} {a b d : Nat}

theorem refl (h : IsBoundary cs a) : GapTo cs a a := by
  obtain ⟨before, after, hcs, hsize⟩ := h
  exact ⟨⟨after, a, size cs⟩, ⟨after, a, size cs⟩, ⟨rfl, before, hcs, hsize⟩, rfl, rfl, .refl _⟩

theorem of_gap {c c' : Cursor} (hc : c.At cs) (h : c.Gap c') : GapTo cs c.offset c'.offset :=
  ⟨c, c', hc, rfl, rfl, h⟩

theorem trans (h : GapTo cs a b) (h' : GapTo cs b d) : GapTo cs a d := by
  obtain ⟨c, c', hc, hca, hcb, hgap⟩ := h
  obtain ⟨e, e', he, heb, hed, hgap'⟩ := h'
  have heq : c' = e := (hgap.at hc).eq he (hcb.trans heb.symm)
  subst heq
  exact ⟨c, e', hc, hca, hed, hgap.trans hgap'⟩

theorem le (h : GapTo cs a b) : a ≤ b := by
  obtain ⟨c, c', -, hca, hcb, hgap⟩ := h
  exact hca ▸ hcb ▸ hgap.offset_le

/-- The gap from the place of a cursor. -/
theorem gap {c : Cursor} (hc : c.At cs) (h : GapTo cs c.offset b) :
    ∃ c' : Cursor, c'.offset = b ∧ c.Gap c' := by
  obtain ⟨e, e', he, hea, heb, hgap⟩ := h
  have heq : e = c := he.eq hc hea
  exact ⟨e', heb, heq ▸ hgap⟩

theorem isBoundary_left (h : GapTo cs a b) : IsBoundary cs a := by
  obtain ⟨c, c', hc, hca, -, -⟩ := h
  exact hca ▸ hc.isBoundary

theorem isBoundary_right (h : GapTo cs a b) : IsBoundary cs b := by
  obtain ⟨c, c', hc, -, hcb, hgap⟩ := h
  exact hcb ▸ (hgap.at hc).isBoundary

end GapTo

namespace Cursor

variable {cs : List Char} {c c' : Cursor}

/-! ### The comments in a gap -/

/-- Passing over blanks stays in the gap unless it leads past it. -/
theorem Gap.skipBlanks (h : Gap c c') (hle : c.skipBlanks.offset ≤ c'.offset) :
    Gap c.skipBlanks c' := by
  induction h with
  | refl c =>
    have hback : c.skipBlanks = c := by
      cases hrest : c.rest with
      | nil => simp [Cursor.skipBlanks, hrest]
      | cons x xs =>
        by_cases hx : isBlank x = true
        · have hlt := offset_lt_advance hrest (n := 1) (by omega)
          have := (gap_skipBlanks (c.advance 1)).offset_le
          rw [skipBlanks_of_isBlank hrest hx] at hle
          omega
        · exact skipBlanks_of_notBlank hrest (by simpa using hx)
    rw [hback]
    exact .refl c
  | blank hrest hx _ ih =>
    rw [skipBlanks_of_isBlank hrest hx] at hle ⊢
    exact ih hle
  | comment hn h _ =>
    rw [skipBlanks_of_commentLength? hn]
    exact .comment hn h

/-- Comments are leaves with a **width**. -/
theorem eq_of_mem_commentsUntilFrom {stop fuel : Nat} {n : Node}
    (h : n ∈ commentsUntilFrom stop fuel c) :
    ∃ start stop, start < stop ∧ n = ⟨Node.commentKind, true, false, none, start, stop, []⟩ := by
  induction fuel generalizing c with
  | zero => simp [commentsUntilFrom] at h
  | succ fuel ih =>
    unfold commentsUntilFrom at h
    simp only at h
    split at h
    · simp at h
    · split at h
      · next n hn =>
        rcases mem_cons.1 h with rfl | h
        · obtain ⟨hpos, xs, hrest⟩ := exists_of_commentLength? hn
          exact ⟨_, _, offset_lt_advance hrest (by omega), rfl⟩
        · exact ih h
      · simp at h

/-- **The comments of a gap** lie in it. -/
theorem placedIn_commentsUntilFrom (fuel : Nat) (hc : At cs c) (h : Gap c c') :
    Node.PlacedIn cs c.offset c'.offset (commentsUntilFrom c'.offset fuel c) := by
  induction fuel generalizing c with
  | zero => exact h.offset_le
  | succ fuel ih =>
    unfold commentsUntilFrom
    simp only
    split
    · exact h.offset_le
    · next hlt =>
      have hblanks := h.skipBlanks (by omega)
      have hat := (gap_skipBlanks c).at hc
      split
      · next n hn =>
        -- The gap has not ended, so its next step is this comment.
        have hrest : Gap (c.skipBlanks.advance n) c' := by
          cases hblanks with
          | refl => omega
          | blank hrest hx _ =>
            obtain ⟨-, xs, hslash⟩ := exists_of_commentLength? hn
            rw [hslash] at hrest
            obtain ⟨rfl, -⟩ := List.cons.inj hrest
            exact absurd hx (by decide)
          | comment hn' hrest => exact Option.some.inj (hn'.symm.trans hn) ▸ hrest
        refine ⟨(gap_skipBlanks c).offset_le, ?_, ih (hat.advance n) hrest⟩
        exact ⟨hat.isBoundary, (hat.advance n).isBoundary, offset_le_advance _ _⟩
      · exact h.offset_le

theorem placedIn_commentsUntil (hc : At cs c) (h : Gap c c') :
    Node.PlacedIn cs c.offset c'.offset (c.commentsUntil c'.offset) :=
  placedIn_commentsUntilFrom _ hc h

/-- The comments up to the end of the text lie in the text. -/
theorem placedIn_commentsUntilFrom_size (fuel : Nat) (hc : At cs c) :
    Node.PlacedIn cs c.offset (size cs) (commentsUntilFrom (size cs) fuel c) := by
  induction fuel generalizing c with
  | zero => exact hc.isBoundary.le
  | succ fuel ih =>
    unfold commentsUntilFrom
    simp only
    have hat := (gap_skipBlanks c).at hc
    split
    · exact hc.isBoundary.le
    · split
      · next n _ =>
        exact ⟨(gap_skipBlanks c).offset_le,
          ⟨hat.isBoundary, (hat.advance n).isBoundary, offset_le_advance _ _⟩, ih (hat.advance n)⟩
      · exact hc.isBoundary.le

/-! ### Going to a byte -/

theorem at_goTo_go {stop : Nat} (hlimit : c.limit = size cs) (hstop : IsBoundary cs stop) :
    ∀ {rest before : List Char}, cs = before ++ rest → size before ≤ stop →
      At cs (goTo.go stop c rest (size before)) ∧ (goTo.go stop c rest (size before)).offset = stop
  | [], before, hcs, hle => by
    rw [append_nil] at hcs
    subst hcs
    exact ⟨⟨hlimit, cs, by simp [goTo.go], rfl⟩, Nat.le_antisymm hle hstop.le⟩
  | x :: xs, before, hcs, hle => by
    unfold goTo.go
    split
    · next h => exact ⟨⟨hlimit, before, hcs, rfl⟩, Nat.le_antisymm hle h⟩
    · next h =>
      have hnext : size (before ++ [x]) ≤ stop := by
        -- A boundary after `before` lies after `x` too.
        obtain ⟨front, after, hcs', hfront⟩ := hstop
        obtain ⟨mid, rfl⟩ :=
          Utf8.prefix_of_size_le ⟨_, hcs.symm⟩ ⟨_, hcs'.symm⟩ (hfront ▸ hle)
        cases mid with
        | nil => simp [hfront] at h
        | cons y mid =>
          have hxy : x = y := by
            rw [hcs, append_assoc] at hcs'
            exact (List.cons.inj (append_cancel_left hcs')).1
          subst hxy
          simp [hfront]
      have hsplit : cs = before ++ [x] ++ xs := by rw [hcs, append_assoc, singleton_append]
      simpa using at_goTo_go hlimit hstop hsplit hnext

/-- Going to a boundary further on leads there. -/
theorem At.goTo (hc : At cs c) {stop : Nat} (hstop : IsBoundary cs stop) (hle : c.offset ≤ stop) :
    At cs (c.goTo stop) ∧ (c.goTo stop).offset = stop := by
  obtain ⟨before, hcs, hoffset⟩ := hc.split
  rw [Cursor.goTo, hoffset]
  exact at_goTo_go hc.limit hstop hcs (hoffset ▸ hle)

end Cursor

end ScriptTree
