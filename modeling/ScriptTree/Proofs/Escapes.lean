import ScriptTree.Proofs.IntegerLiteral
import ScriptTree.Proofs.Literal

/-!
# Escapes in the bodies of literals

The standard of the language **cuts** a body from left to right into plain code points and escapes,
and says what each of them stands for. How far an escape reaches depends on what follows it: a
carriage return takes a line feed along, and an octal number takes up to three digits, as long as it
stays below 256. Where no escape can be read, a backslash makes the code point after it stand for
itself.

`unescape` takes three octal digits whatever they spell. So it agrees with the standard as long as
no octal number of two digits stands before a third one, and it fails exactly at a number in braces
that is no code point.

## Main results

* `unescape_of_cut`: the value of a body, piece by piece.
* `unescape_eq_cooked_iff`, `unescape_fails_iff`: when it is the standard one, and when there is
  none.
-/

namespace ScriptTree

open List
variable {n : Nat} {c : CodePoint} {ds t rest raw : Text}

/-! ### Cutting bodies -/

/-- Letters that name a code point after a backslash, and line breaks, which stand for nothing. -/
def shortEscapes : List (List Char × List Char) :=
  [(['n'], ['\n']), (['t'], ['\t']), (['r'], ['\r']), (['b'], ['\x08']), (['f'], ['\x0c']),
    (['v'], ['\x0b']), (['\n'], []), (['\r'], []), (['\r', '\n'], []), (['\u2028'], []),
    (['\u2029'], [])]

/-- The letters before a fixed number of hexadecimal digits. -/
def digitMarks : List (Char × Nat) := [('x', 2), ('u', 4)]

/-- What a backslash makes an **escape**: one of the short ones, or the number of a code point in so
many hexadecimal digits, in any number of them between braces, or in octal digits. -/
inductive Escape where
  | short (written meant : List Char)
  | fixed (mark : Char) (ds : Text)
  | braced (ds : Text)
  | octal (ds : Text)

namespace Escape

/-- An escape as **written** after its backslash. -/
def text : Escape → Text
  | short written _ => Text.ofChars written
  | fixed mark ds => .scalar mark :: ds
  | braced ds => .scalar 'u' :: .scalar '\x7b' :: ds ++ [.scalar '\x7d']
  | octal ds => ds

/-- What an escape **stands for**. -/
def value : Escape → Text
  | short _ meant => Text.ofChars meant
  | fixed _ ds | braced ds => (CodePoint.ofNat? (digitsValue 16 ds)).toList
  | octal ds => (CodePoint.ofNat? (digitsValue 8 ds)).toList

/-- When an escape can be **read before** a text. An octal number takes every digit that it can: it
has at most three of them and stays below 256. -/
def Stands (rest : Text) : Escape → Prop
  | short written meant => (written, meant) ∈ shortEscapes ∧
      (written = ['\r'] → rest.head? ≠ some (.scalar '\n'))
  | fixed mark ds => (mark, ds.length) ∈ digitMarks ∧ ds.all isHexDigit
  | braced ds => ds ≠ [] ∧ ds.all isHexDigit
  | octal ds => ds ≠ [] ∧ ds.all isOctalDigit ∧ ds.length ≤ 3 ∧ digitsValue 8 ds ≤ 0o377 ∧
      ∀ d, rest.head? = some d → isOctalDigit d → ds.length = 3 ∨ 0o377 < digitsValue 8 (ds ++ [d])

end Escape

/-- A **piece** of a body. -/
inductive Piece where
  | plain (c : CodePoint)
  | escape (e : Escape)
  | itself (c : CodePoint)
  | dangling

namespace Piece

/-- What a piece **stands for**. -/
def value : Piece → Text
  | plain c | itself c => [c]
  | escape e => e.value
  | dangling => [.scalar '\\']

/-- Whether a piece is no number in braces **above U+10FFFF**. -/
def InRange : Piece → Prop
  | escape (.braced ds) => digitsValue 16 ds ≤ 0x10FFFF
  | _ => True

/-- An octal number of two digits **joins** a third one after it. -/
def Joins (p q : Piece) : Prop :=
  ∃ a b c, p = .escape (.octal [a, b]) ∧ q = .plain c ∧ isOctalDigit c

end Piece

/-- A body **cut** into pieces from left to right. What can be read as an escape is one. -/
inductive Cut : Text → List Piece → Prop
  | nil : Cut [] []
  | plain {c : CodePoint} {rest : Text} {ps : List Piece} (hc : c ≠ .scalar '\\')
      (hrest : Cut rest ps) : Cut (c :: rest) (.plain c :: ps)
  | escape {e : Escape} {rest : Text} {ps : List Piece} (he : e.Stands rest)
      (hrest : Cut rest ps) : Cut (.scalar '\\' :: (e.text ++ rest)) (.escape e :: ps)
  | itself {c : CodePoint} {rest : Text} {ps : List Piece}
      (hnone : ∀ (e : Escape) (after : Text), e.text ++ after = c :: rest → ¬e.Stands after)
      (hrest : Cut rest ps) : Cut (.scalar '\\' :: c :: rest) (.itself c :: ps)
  | dangling : Cut [.scalar '\\'] [.dangling]

/-- Every body can be **cut**. -/
theorem exists_cut : ∀ raw : Text, ∃ ps, Cut raw ps
  | [] => ⟨_, .nil⟩
  | [c] => by
    by_cases hc : c = .scalar '\\'
    · exact hc ▸ ⟨_, .dangling⟩
    · exact ⟨_, .plain hc .nil⟩
  | c :: d :: rest => by
    by_cases hc : c = .scalar '\\'
    · subst hc
      by_cases h : ∃ (e : Escape) (after : Text), e.text ++ after = d :: rest ∧ e.Stands after
      · obtain ⟨e, after, heq, he⟩ := h
        have hlength := congrArg List.length heq
        obtain ⟨ps, hps⟩ := exists_cut after
        exact heq ▸ ⟨_, .escape he hps⟩
      · obtain ⟨ps, hps⟩ := exists_cut rest
        exact ⟨_, .itself (fun e after heq he ↦ h ⟨e, after, heq, he⟩) hps⟩
    · obtain ⟨ps, hps⟩ := exists_cut (d :: rest)
      exact ⟨_, .plain hc hps⟩
termination_by raw => raw.length
decreasing_by
  · simp only [length_append, length_cons] at hlength ⊢
    omega
  all_goals simp

/-! ### Numbers -/

/-- Digits spell a number **below a power** of sixteen. -/
theorem digitsValue_lt {base : Nat} (hbase : base ≤ 16) (hlength : ds.length ≤ n) :
    digitsValue base ds < 16 ^ n := by
  refine Nat.lt_of_lt_of_le ?_ (Nat.pow_le_pow_right (by decide) hlength)
  clear hlength
  induction ds using List.reverseRecOn with
  | nil => simp [digitsValue]
  | append_singleton ds d ih =>
    have hd : (d.char?.bind hexValue?).getD 0 < 16 := by
      cases hv : d.char?.bind hexValue? with
      | none => simp
      | some v =>
        obtain ⟨c, -, hc⟩ := Option.bind_eq_some_iff.1 hv
        have := Number.hexValue?_cases hc
        simp only [Option.getD_some]
        omega
    have hmul := Nat.mul_le_mul_left (digitsValue base ds) hbase
    rw [digitsValue, foldl_concat, ← digitsValue, length_append, length_singleton]
    omega

theorem exists_ofNat? (h : n ≤ 0x10FFFF) : ∃ c, CodePoint.ofNat? n = some c := by
  unfold CodePoint.ofNat?
  split
  · exact ⟨_, rfl⟩
  · exact ⟨_, if_pos (by omega)⟩

theorem numbered_of_le (h : n ≤ 0x10FFFF) : numbered n = .ok (CodePoint.ofNat? n).toList := by
  obtain ⟨c, hc⟩ := exists_ofNat? h
  simp [numbered, hc]

theorem exists_numbered_eq_error (h : 0x10FFFF < n) : ∃ e, numbered n = .error e := by
  have hnone : CodePoint.ofNat? n = none := by
    rw [CodePoint.ofNat?, dif_neg (by omega), if_neg (by omega)]
  simp [numbered, hnone]

/-! ### Reading escapes -/

theorem hasHexDigits_iff : hasHexDigits n t = true ↔
    ∃ ds rest, t = ds ++ rest ∧ ds.length = n ∧ ds.all isHexDigit = true := by
  simp only [hasHexDigits, Bool.and_eq_true, beq_iff_eq]
  constructor
  · rintro ⟨hlength, hall⟩
    exact ⟨t.take n, t.drop n, (take_append_drop n t).symm, hlength, hall⟩
  · rintro ⟨ds, rest, rfl, rfl, hall⟩
    simpa using hall

theorem bracedDigits?_iff : bracedDigits? t = some ds ↔
    ∃ rest, t = ds ++ .scalar '\x7d' :: rest ∧ ds ≠ [] ∧ ds.all isHexDigit = true := by
  unfold bracedDigits?
  constructor
  · intro h
    dsimp only at h
    split at h
    · next rest hrest =>
      split_ifs at h with hempty
      cases h
      refine ⟨rest, ?_, by simpa using hempty, all_takeWhile⟩
      rw [← hrest]
      exact (prefix_iff_eq_append.1 (List.takeWhile_prefix _)).symm
    · cases h
  · rintro ⟨rest, rfl, hne, hall⟩
    have hrun : (ds ++ .scalar '\x7d' :: rest).takeWhile isHexDigit = ds := by
      rw [takeWhile_append_of_pos (all_eq_true.1 hall),
        takeWhile_cons_of_neg (by decide), append_nil]
    simp [hrun, hne]

/-- The octal digits that an escape takes. -/
def octalRun (t : Text) : Text := (t.take 3).takeWhile isOctalDigit

theorem escapeAt_other (hu : c ≠ .scalar 'u') (hx : c ≠ .scalar 'x')
    (hr : c = .scalar '\r' → rest.head? ≠ some (.scalar '\n')) :
    escapeAt (c :: rest) = if isOctalDigit c then
      .ok ((CodePoint.ofNat? (digitsValue 8 (octalRun (c :: rest)))).toList,
        (octalRun (c :: rest)).length)
      else .ok (shortEscape c, 1) := by
  have hlead : octalRun (c :: rest) <+: (c :: rest).take 3 := List.takeWhile_prefix _
  have hrun : (c :: rest).take (octalRun (c :: rest)).length = octalRun (c :: rest) :=
    (prefix_iff_eq_take.1 (hlead.trans (List.take_prefix 3 _))).symm
  have hbound : digitsValue 8 (octalRun (c :: rest)) < 16 ^ 3 :=
    digitsValue_lt (by decide) (hlead.length_le.trans (by simp))
  rw [escapeAt]
  · simp only [← octalRun.eq_1, drop_zero, hrun, Nat.zero_add,
      numbered_of_le (hbound.le.trans (by decide))]
    rfl
  · rintro t rfl
    exact absurd rfl hu
  · exact hu
  · exact hx
  · rintro t hc rfl
    exact hr hc rfl

theorem escapeAt_fixed {mark : Char} (h : (Escape.fixed mark ds).Stands rest) :
    escapeAt (.scalar mark :: (ds ++ rest))
      = .ok ((CodePoint.ofNat? (digitsValue 16 ds)).toList, ds.length + 1) := by
  obtain ⟨hmark, hall⟩ := h
  have hdigits : hasHexDigits ds.length (ds ++ rest) = true :=
    hasHexDigits_iff.2 ⟨ds, rest, rfl, rfl, hall⟩
  have hvalue (hlength : ds.length ≤ 4) :
      (numbered (digitsValue 16 ((ds ++ rest).take ds.length))).map (·, 1 + ds.length)
        = .ok ((CodePoint.ofNat? (digitsValue 16 ds)).toList, ds.length + 1) := by
    have hlt := digitsValue_lt (by decide : 16 ≤ 16) hlength
    rw [take_left, numbered_of_le (hlt.le.trans (by decide)), Nat.add_comm]
    rfl
  simp only [digitMarks, mem_cons, Prod.mk.injEq, not_mem_nil, or_false] at hmark
  rcases hmark with ⟨rfl, hlength⟩ | ⟨rfl, hlength⟩
  · rw [hlength] at hdigits
    rw [escapeAt, if_pos hdigits, ← hlength]
    exact hvalue (by omega)
  · rw [hlength] at hdigits
    rw [escapeAt, if_pos hdigits, ← hlength]
    · exact hvalue (by omega)
    · -- A brace is no digit.
      intro t heq
      obtain ⟨d, ds, rfl⟩ := exists_cons_of_length_eq_add_one hlength
      obtain rfl := (List.cons.inj heq).1
      exact absurd (all_eq_true.1 hall _ mem_cons_self) (by decide)

theorem escapeAt_braced (hne : ds ≠ []) (hall : ds.all isHexDigit = true) :
    escapeAt ((Escape.braced ds).text ++ rest)
      = (numbered (digitsValue 16 ds)).map (·, ds.length + 3) := by
  have hdigits : bracedDigits? (ds ++ .scalar '\x7d' :: rest) = some ds :=
    bracedDigits?_iff.2 ⟨rest, rfl, hne, hall⟩
  simp only [Escape.text, cons_append, append_assoc, nil_append]
  rw [escapeAt, hdigits]

theorem octalRun_append (hall : ds.all isOctalDigit = true) (hlength : ds.length ≤ 3)
    (rest : Text) :
    octalRun (ds ++ rest) = ds ++ (rest.take (3 - ds.length)).takeWhile isOctalDigit := by
  rw [octalRun, take_append, take_of_length_le hlength,
    takeWhile_append_of_pos (all_eq_true.1 hall)]

/-- An octal number of **two digits** before another one. -/
def Escape.IsCutShort (rest : Text) (e : Escape) : Prop :=
  ∃ a b d after, e = .octal [a, b] ∧ rest = d :: after ∧ isOctalDigit d = true

/-- An octal number that is not cut short takes **its digits**. -/
theorem octalRun_of_stands (h : (Escape.octal ds).Stands rest)
    (hshort : ¬(Escape.octal ds).IsCutShort rest) : octalRun (ds ++ rest) = ds := by
  obtain ⟨hne, hall, hlength, -, hnext⟩ := h
  rw [octalRun_append hall hlength]
  cases htail : (rest.take (3 - ds.length)).takeWhile isOctalDigit with
  | nil => rw [append_nil]
  | cons x xs =>
    have hlead : x :: xs <+: rest.take (3 - ds.length) := htail ▸ List.takeWhile_prefix _
    have hx : isOctalDigit x = true :=
      all_eq_true.1 all_takeWhile x (htail ▸ mem_cons_self)
    have hlt := hlead.length_le
    simp only [length_cons, length_take] at hlt
    obtain ⟨after, rfl⟩ := hlead.trans (List.take_prefix _ _)
    -- One digit can always take another one.
    have hbig := (hnext x rfl hx).resolve_left (by omega)
    have htwo : ds.length = 2 := by
      by_contra hne
      have hsmall : digitsValue 8 (ds ++ [x]) < 16 ^ 2 :=
        digitsValue_lt (by decide) (by simp; omega)
      omega
    obtain ⟨a, b, rfl⟩ := length_eq_two.1 htwo
    exact absurd ⟨a, b, x, _, rfl, rfl, hx⟩ hshort

theorem escapeAt_octal (hne : ds ≠ []) (hall : ds.all isOctalDigit = true) :
    escapeAt (ds ++ rest) = .ok ((CodePoint.ofNat? (digitsValue 8 (octalRun (ds ++ rest)))).toList,
      (octalRun (ds ++ rest)).length) := by
  obtain ⟨c, cs, rfl⟩ := exists_cons_of_ne_nil hne
  have hc : isOctalDigit c = true := all_eq_true.1 hall c mem_cons_self
  have hne (x : Char) (hx : isOctalDigit (.scalar x) = false) : c ≠ .scalar x := by
    rintro rfl
    rw [hx] at hc
    cases hc
  rw [cons_append, escapeAt_other (hne 'u' rfl) (hne 'x' rfl)
    fun hr ↦ absurd hr (hne '\r' rfl), if_pos hc]

/-- An escape is **read** as it is cut, if it is not cut short and no number that is too large. -/
theorem escapeAt_of_stands {e : Escape} (he : e.Stands rest) (hshort : ¬e.IsCutShort rest)
    (hrange : (Piece.escape e).InRange) :
    escapeAt (e.text ++ rest) = .ok (e.value, e.text.length) := by
  cases e with
  | short written meant =>
    obtain ⟨hmem, hreturn⟩ := he
    simp only [shortEscapes, mem_cons, Prod.mk.injEq, not_mem_nil] at hmem
    by_cases hr : written = ['\r']
    · subst hr
      obtain rfl : meant = [] := by simpa using hmem
      exact escapeAt_other (by decide) (by decide) fun _ ↦ hreturn rfl
    · simp only [hr, false_and, false_or] at hmem
      repeat' obtain ⟨rfl, rfl⟩ | hmem := hmem
      all_goals rfl
  | fixed mark ds => exact escapeAt_fixed he
  | braced ds =>
    rw [escapeAt_braced he.1 he.2, numbered_of_le hrange]
    simp [Except.map, Escape.value, Escape.text]
  | octal ds =>
    have hrun := octalRun_of_stands he hshort
    have hat : escapeAt (ds ++ rest) = _ := escapeAt_octal he.1 he.2.1
    rwa [hrun] at hat

/-- Where an octal digit stands there is an **octal number**. -/
theorem exists_octal (hc : isOctalDigit c = true) (rest : Text) :
    ∃ ds after, ds ++ after = c :: rest ∧ (Escape.octal ds).Stands after := by
  have hbound {ds : Text} (hlength : ds.length ≤ 2) : digitsValue 8 ds ≤ 0o377 :=
    Nat.le_of_lt_succ (digitsValue_lt (by decide) hlength)
  by_cases hd : ∃ d after, rest = d :: after ∧ isOctalDigit d = true
  · obtain ⟨d, after, rfl, hd⟩ := hd
    by_cases hx : ∃ x after', after = x :: after' ∧ isOctalDigit x = true ∧
      digitsValue 8 [c, d, x] ≤ 0o377
    · obtain ⟨x, after', rfl, hx, hle⟩ := hx
      exact ⟨[c, d, x], after', rfl, by simp, by simp [hc, hd, hx], by simp, hle, by simp⟩
    · refine ⟨[c, d], after, rfl, by simp, by simp [hc, hd], by simp, hbound (by simp),
        fun x hafter hdigit ↦ .inr ?_⟩
      obtain ⟨after', rfl⟩ := head?_eq_some_iff.1 hafter
      exact Nat.lt_of_not_le fun hle ↦ hx ⟨x, after', rfl, hdigit, hle⟩
  · refine ⟨[c], rest, rfl, by simp, by simp [hc], by simp, hbound (by simp),
      fun d hrest hdigit ↦ ?_⟩
    obtain ⟨after, rfl⟩ := head?_eq_some_iff.1 hrest
    exact absurd ⟨d, after, rfl, hdigit⟩ hd

/-- What is no escape stands for **itself**. -/
theorem escapeAt_itself
    (hnone : ∀ (e : Escape) (after : Text), e.text ++ after = c :: rest → ¬e.Stands after) :
    escapeAt (c :: rest) = .ok ([c], 1) := by
  have hfixed {mark : Char} {n : Nat} (hmark : (mark, n) ∈ digitMarks) (hc : c = .scalar mark) :
      hasHexDigits n rest ≠ true := by
    intro h
    obtain ⟨ds, after, rfl, rfl, hall⟩ := hasHexDigits_iff.1 h
    exact hnone (.fixed mark ds) after (by rw [hc]; rfl) ⟨hmark, hall⟩
  by_cases hu : c = .scalar 'u'
  · subst hu
    by_cases hbrace : ∃ t, rest = .scalar '\x7b' :: t
    · obtain ⟨t, rfl⟩ := hbrace
      have hbraced : bracedDigits? t = none := by
        by_contra h
        obtain ⟨ds, hds⟩ := Option.ne_none_iff_exists'.1 h
        obtain ⟨after, rfl, hdigits⟩ := bracedDigits?_iff.1 hds
        exact hnone (.braced ds) after (by simp [Escape.text]) hdigits
      rw [escapeAt, hbraced]
    · rw [escapeAt, if_neg (hfixed (by decide) rfl)]
      exact fun t ht ↦ hbrace ⟨t, ht⟩
  by_cases hx : c = .scalar 'x'
  · subst hx
    rw [escapeAt, if_neg (hfixed (by decide) rfl)]
  have hreturn : c = .scalar '\r' → rest.head? ≠ some (.scalar '\n') := by
    rintro rfl hhead
    obtain ⟨after, rfl⟩ := head?_eq_some_iff.1 hhead
    exact hnone (.short ['\r', '\n'] []) after rfl ⟨by decide, by simp⟩
  have hoctal : isOctalDigit c ≠ true := by
    intro h
    obtain ⟨ds, after, heq, hds⟩ := exists_octal h rest
    exact hnone (.octal ds) after heq hds
  have hitself : shortEscape c = [c] := by
    have hone {x : Char} (h : [x] ∈ shortEscapes.map (·.1)) (hc : c = .scalar x) : False := by
      obtain ⟨⟨written, meant⟩, hmem, hwritten⟩ := mem_map.1 h
      obtain rfl : written = [x] := hwritten
      refine hnone (.short [x] meant) rest (by rw [hc]; rfl) ⟨hmem, fun hr ↦ hreturn ?_⟩
      rw [hc, (List.cons.inj hr).1]
    unfold shortEscape
    split
    iterate 10 exact (hone (by decide) rfl).elim
    rfl
  rw [escapeAt_other hu hx hreturn, if_neg hoctal, hitself]

/-! ### Bodies -/

theorem unescapeFrom_eq_drop (n : Nat) (t : Text) : unescapeFrom n t = unescape (t.drop n) := by
  induction t generalizing n with
  | nil => cases n <;> rfl
  | cons c t ih =>
    cases n with
    | zero => rfl
    | succ n => exact ih n

/-- A backslash takes its **escape** along. -/
theorem unescape_of_escapeAt {value : Text} (h : escapeAt t = .ok (value, n)) :
    unescape (.scalar '\\' :: t) = (unescape (t.drop n)).map (value ++ ·) := by
  rw [unescape, unescapeFrom, if_pos rfl, h, ← unescapeFrom_eq_drop]

/-- What `unescape` **makes of pieces**: nothing if some number is no code point, and otherwise what
they stand for, or less if an octal number joins a digit. -/
def Yields (ps : List Piece) : Except EscapeFault Text → Prop
  | .error _ => ¬∀ p ∈ ps, p.InRange
  | .ok value => (∀ p ∈ ps, p.InRange) ∧ value.length ≤ (ps.flatMap Piece.value).length ∧
      (value = ps.flatMap Piece.value ↔ ps.IsChain fun p q ↦ ¬p.Joins q)

variable {p : Piece} {ps : List Piece} {result : Except EscapeFault Text}

/-- A piece that is taken as it is cut **adds** what it stands for. -/
theorem Yields.cons (h : Yields ps result) (hp : p.InRange) (hjoins : ∀ q ∈ ps.head?, ¬p.Joins q) :
    Yields (p :: ps) (result.map (p.value ++ ·)) := by
  cases result with
  | error e => exact fun hall ↦ h fun q hq ↦ hall q (mem_cons_of_mem _ hq)
  | ok value =>
    obtain ⟨hrange, hle, hvalue⟩ := h
    refine ⟨forall_mem_cons.2 ⟨hp, hrange⟩, ?_, ?_⟩
    · simpa using hle
    · rw [isChain_cons, flatMap_cons, append_cancel_left_eq, hvalue]
      exact ⟨fun h ↦ ⟨hjoins, h⟩, fun h ↦ h.2⟩

/-- An octal number that **joins** a digit gives one code point for two. -/
theorem Yields.join {a b d : CodePoint} (c : CodePoint) (hd : isOctalDigit d = true)
    (h : Yields (.plain d :: ps) (result.map (d :: ·))) :
    Yields (.escape (.octal [a, b]) :: .plain d :: ps) (result.map (c :: ·)) := by
  cases result with
  | error e => exact fun hall ↦ h fun q hq ↦ hall q (mem_cons_of_mem _ hq)
  | ok value =>
    obtain ⟨hrange, hle, -⟩ := h
    have hlt : (c :: value).length
        < ((Piece.escape (.octal [a, b]) :: .plain d :: ps).flatMap Piece.value).length := by
      have hbound : digitsValue 8 [a, b] < 16 ^ 2 := digitsValue_lt (by decide) (by simp)
      obtain ⟨x, hx⟩ := exists_ofNat? (hbound.le.trans (by decide))
      have hone : (Piece.escape (.octal [a, b])).value = [x] := by
        rw [Piece.value, Escape.value, hx]
        rfl
      rw [flatMap_cons, hone]
      simpa [Nat.lt_succ_iff] using hle
    refine ⟨forall_mem_cons.2 ⟨trivial, hrange⟩, hlt.le, iff_of_false ?_ ?_⟩
    · exact fun heq ↦ absurd (congrArg List.length heq) hlt.ne
    · intro hchain
      exact (isChain_cons_cons.1 hchain).1 ⟨a, b, d, rfl, rfl, hd⟩

/-- **The value of a body**, piece by piece. -/
theorem unescape_of_cut (h : Cut raw ps) : Yields ps (unescape raw) := by
  have hnil : Yields [] (unescape []) := ⟨by simp, by simp, iff_of_true rfl .nil⟩
  induction h with
  | nil => exact hnil
  | dangling => exact hnil.cons (p := .dangling) trivial (by simp)
  | @plain c rest ps hc hrest ih =>
    rw [unescape, unescapeFrom_plain hc]
    exact ih.cons (p := .plain c) trivial (by simp [Piece.Joins])
  | @itself c rest ps hnone hrest ih =>
    rw [unescape_of_escapeAt (escapeAt_itself hnone)]
    exact ih.cons (p := .itself c) trivial (by simp [Piece.Joins])
  | @escape e rest ps he hrest ih =>
    by_cases hshort : e.IsCutShort rest
    · obtain ⟨a, b, d, after, rfl, rfl, hd⟩ := hshort
      have hrun : octalRun ([a, b] ++ d :: after) = [a, b, d] := by
        rw [octalRun_append he.2.1 (by simp)]
        simp [hd]
      have hbound : digitsValue 8 [a, b, d] < 16 ^ 3 := digitsValue_lt (by decide) (by simp)
      obtain ⟨x, hx⟩ := exists_ofNat? (hbound.le.trans (by decide))
      have hat : escapeAt ([a, b] ++ d :: after) = _ := escapeAt_octal he.1 he.2.1
      rw [hrun, hx] at hat
      have hjoined : unescape (.scalar '\\' :: ([a, b] ++ d :: after))
          = (unescape after).map (x :: ·) := unescape_of_escapeAt hat
      have hne : d ≠ .scalar '\\' := by
        rintro rfl
        exact absurd hd (by decide)
      rw [unescape, unescapeFrom_plain hne] at ih
      cases hrest with
      | plain => exact hjoined ▸ ih.join x hd
      | _ => exact absurd rfl hne
    · by_cases hrange : (Piece.escape e).InRange
      · rw [unescape_of_escapeAt (escapeAt_of_stands he hshort hrange), drop_left]
        refine ih.cons (p := .escape e) hrange fun q hq ↦ ?_
        rintro ⟨a, b, d, hp, rfl, hd⟩
        obtain ⟨ps', rfl⟩ := head?_eq_some_iff.1 hq
        cases hrest with
        | plain => exact hshort ⟨a, b, d, _, Piece.escape.inj hp, rfl, hd⟩
      · cases e with
        | braced ds =>
          obtain ⟨fault, hfault⟩ := exists_numbered_eq_error (Nat.lt_of_not_le hrange)
          rw [unescape, unescapeFrom, escapeAt_braced he.1 he.2, hfault]
          exact fun hall ↦ hrange (hall _ mem_cons_self)
        | _ => exact absurd trivial hrange

/-- **When the value of a body is the standard one.** Every body is cut into pieces as the standard
says. If all numbers in braces are code points, the body has a value, and it is what the pieces
stand for exactly if no octal number of two digits stands before a third one. -/
theorem unescape_eq_cooked_iff (raw : Text) :
    (∃ ps, Cut raw ps) ∧ ∀ ps, Cut raw ps → (∀ p ∈ ps, p.InRange) →
      (∃ value, unescape raw = .ok value) ∧
      (unescape raw = .ok (ps.flatMap Piece.value) ↔ ps.IsChain fun p q ↦ ¬p.Joins q) := by
  refine ⟨exists_cut raw, fun ps hcut hrange ↦ ?_⟩
  have hyields := unescape_of_cut hcut
  cases hvalue : unescape raw with
  | error e =>
    rw [hvalue] at hyields
    exact absurd hrange hyields
  | ok value =>
    rw [hvalue] at hyields
    exact ⟨⟨value, rfl⟩, by rw [Except.ok.injEq]; exact hyields.2.2⟩

/-- At the number 40 before an eight, which is no octal digit. -/
theorem unescape_eq_cooked_apart : ∃ ps, Cut (Text.ofChars ['\\', '4', '0', '8']) ps ∧
    ps.flatMap Piece.value = Text.ofChars [' ', '8'] ∧
    unescape (Text.ofChars ['\\', '4', '0', '8']) = .ok (ps.flatMap Piece.value) := by
  have hcut : Cut (Text.ofChars ['\\', '4', '0', '8'])
      [.escape (.octal [.scalar '4', .scalar '0']), .plain (.scalar '8')] := by
    refine .escape (e := .octal [.scalar '4', .scalar '0'])
      ⟨by decide, by decide, by decide, by decide, ?_⟩ (.plain (by decide) .nil)
    rintro d ⟨⟩ h
    exact absurd h (by decide)
  have hiff := ((unescape_eq_cooked_iff _).2 _ hcut (by simp [Piece.InRange])).2
  exact ⟨_, hcut, by decide, hiff.2 (by simp [Piece.Joins, isOctalDigit])⟩

/-- At the number 400, which the standard reads as the number 40 and a zero. -/
theorem unescape_overlong : ∃ ps, Cut (Text.ofChars ['\\', '4', '0', '0']) ps ∧
    (∀ p ∈ ps, p.InRange) ∧ ps.flatMap Piece.value = Text.ofChars [' ', '0'] ∧
    unescape (Text.ofChars ['\\', '4', '0', '0']) ≠ .ok (Text.ofChars [' ', '0']) := by
  refine ⟨[.escape (.octal [.scalar '4', .scalar '0']), .plain (.scalar '0')], ?_,
    by simp [Piece.InRange], by decide, by decide⟩
  refine .escape (e := .octal [.scalar '4', .scalar '0'])
    ⟨by decide, by decide, by decide, by decide, ?_⟩ (.plain (by decide) .nil)
  rintro d ⟨⟩ -
  decide

/-- **When a body has no value.** Every body is cut into pieces. It has no value exactly if a piece
is a number in braces above U+10FFFF; any other body has one, whatever is malformed or missing in
it. -/
theorem unescape_fails_iff (raw : Text) :
    (∃ ps, Cut raw ps) ∧ ∀ ps, Cut raw ps →
      ((∃ e, unescape raw = .error e) ↔
        ∃ ds, .escape (.braced ds) ∈ ps ∧ 0x10FFFF < digitsValue 16 ds) ∧
      ((∃ value, unescape raw = .ok value) ↔
        ∀ ds, .escape (.braced ds) ∈ ps → digitsValue 16 ds ≤ 0x10FFFF) := by
  refine ⟨exists_cut raw, fun ps hcut ↦ ?_⟩
  have hrange : (∀ ds, .escape (.braced ds) ∈ ps → digitsValue 16 ds ≤ 0x10FFFF) ↔
      ∀ p ∈ ps, p.InRange := by
    refine ⟨fun h p hp ↦ ?_, fun h ds hds ↦ h _ hds⟩
    fun_cases Piece.InRange p with
    | case1 ds => exact h ds hp
    | case2 => trivial
  have hyields := unescape_of_cut hcut
  rw [hrange]
  cases hvalue : unescape raw with
  | error e =>
    rw [hvalue] at hyields
    have hbad := mt hrange.1 hyields
    exact ⟨iff_of_true ⟨e, rfl⟩ (by simpa using hbad), iff_of_false (by simp) hyields⟩
  | ok value =>
    rw [hvalue] at hyields
    have hgood := hrange.2 hyields.1
    exact ⟨iff_of_false (by simp) (by simpa using hgood), iff_of_true ⟨value, rfl⟩ hyields.1⟩

/-- At the first number that is no code point. -/
theorem unescape_fails_beyond : ∃ ps,
    Cut (Text.ofChars "\\u\x7b110000\x7d".toList) ps ∧
    (∃ ds, .escape (.braced ds) ∈ ps ∧ 0x10FFFF < digitsValue 16 ds) ∧
    ∃ e, unescape (Text.ofChars "\\u\x7b110000\x7d".toList) = .error e := by
  have hcut : Cut (Text.ofChars "\\u\x7b110000\x7d".toList)
      [.escape (.braced (Text.ofChars "110000".toList))] :=
    .escape (e := .braced (Text.ofChars "110000".toList)) ⟨by decide, by decide⟩ .nil
  have hbeyond : ∃ ds, .escape (.braced ds) ∈ [Piece.escape (.braced (Text.ofChars
      "110000".toList))] ∧ 0x10FFFF < digitsValue 16 ds := ⟨_, List.mem_cons_self, by decide⟩
  exact ⟨_, hcut, hbeyond, ((unescape_fails_iff _).2 _ hcut).1.2 hbeyond⟩

end ScriptTree
