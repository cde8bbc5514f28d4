import ScriptTree.Proofs.Literal

/-!
# Between the quotes

The body of a string literal is read from left to right, a backslash together with the code point
after it. So it is a list of code points that are **plain or escaped**, and a body that ends in the
middle of an escape is none. What is written for a value has one of them for each code point of the
value (`bodyPoints?_quoted`), whatever stands next to what: a backslash is escaped itself, so what
follows it in the value is not taken for an escape.

A quote is escaped only where there is no choice. The quote around a value that has single quotes
and no double ones is the double quote, so an escaped quote tells that the value has both.

## Main results

* `bodyPoints?_quoted`: what is written for a value.
* `stringLiteral_exactly`: what stands between the quotes.
-/

namespace ScriptTree

/-- A code point of a **body**: alone, or after a backslash. -/
inductive BodyPoint where
  | plain (c : CodePoint)
  | escaped (c : CodePoint)
  deriving DecidableEq, Repr

/-- What a **body** is made of, unless it ends in a backslash that escapes nothing. -/
def bodyPoints? : Text → Option (List BodyPoint)
  | [] => some []
  | [c] => if c = .scalar '\\' then none else some [.plain c]
  | c :: d :: rest =>
    if c = .scalar '\\' then (bodyPoints? rest).map (.escaped d :: ·)
    else (bodyPoints? (d :: rest)).map (.plain c :: ·)

theorem bodyPoints?_escaped (c : CodePoint) (rest : Text) :
    bodyPoints? (.scalar '\\' :: c :: rest) = (bodyPoints? rest).map (.escaped c :: ·) := by
  rw [bodyPoints?, if_pos rfl]

theorem bodyPoints?_plain {c : CodePoint} (hc : c ≠ .scalar '\\') (rest : Text) :
    bodyPoints? (c :: rest) = (bodyPoints? rest).map (.plain c :: ·) := by
  cases rest with
  | nil => simp [bodyPoints?, hc]
  | cons d rest => rw [bodyPoints?, if_neg hc]

/-- How a code point of a value is **written** between quotes. -/
def quotedBodyPoint (quote c : CodePoint) : BodyPoint :=
  if c = .scalar '\\' then .escaped (.scalar '\\')
  else if c = .scalar '\n' then .escaped (.scalar 'n')
  else if c = .scalar '\r' then .escaped (.scalar 'r')
  else if c = quote then .escaped quote
  else .plain c

theorem bodyPoints?_quotedPoint (quote c : CodePoint) (rest : Text) :
    bodyPoints? (quotedPoint quote c ++ rest)
      = (bodyPoints? rest).map (quotedBodyPoint quote c :: ·) := by
  unfold quotedPoint quotedBodyPoint
  split_ifs with hbackslash hline hreturn hquote
  · exact bodyPoints?_escaped _ rest
  · exact bodyPoints?_escaped _ rest
  · exact bodyPoints?_escaped _ rest
  · exact bodyPoints?_escaped _ rest
  · exact bodyPoints?_plain hbackslash rest

/-- What is written for a value has **one** plain or escaped code point for each of its own. -/
theorem bodyPoints?_quoted (quote : CodePoint) (value : Text) :
    bodyPoints? (value.mapText (quotedPoint quote)) = some (value.map (quotedBodyPoint quote)) := by
  unfold Text.mapText
  induction value with
  | nil => rfl
  | cons c value ih =>
    rw [List.flatMap_cons, bodyPoints?_quotedPoint, ih]
    rfl

/-- What is written **plain** neither ends the literal nor breaks its line. -/
theorem of_quotedBodyPoint_eq_plain {quote c d : CodePoint}
    (h : quotedBodyPoint quote c = .plain d) :
    d ≠ quote ∧ d ≠ .scalar '\n' ∧ d ≠ .scalar '\r' := by
  unfold quotedBodyPoint at h
  split_ifs at h with hbackslash hline hreturn hquote
  obtain rfl := BodyPoint.plain.inj h
  exact ⟨hquote, hline, hreturn⟩

/-- A quote that is written **escaped** is the one around the value and occurs in it. -/
theorem of_quotedBodyPoint_eq_escaped {q : Char} (hq : IsQuote q) {quote c : CodePoint}
    (h : quotedBodyPoint quote c = .escaped (.scalar q)) : c = quote ∧ quote = .scalar q := by
  obtain ⟨hbackslash', hn, hr⟩ : '\\' ≠ q ∧ 'n' ≠ q ∧ 'r' ≠ q := by
    rcases hq with rfl | rfl <;> decide
  unfold quotedBodyPoint at h
  split_ifs at h with hbackslash hline hreturn hquote
  · exact absurd (CodePoint.scalar.inj (BodyPoint.escaped.inj h)) hbackslash'
  · exact absurd (CodePoint.scalar.inj (BodyPoint.escaped.inj h)) hn
  · exact absurd (CodePoint.scalar.inj (BodyPoint.escaped.inj h)) hr
  · exact ⟨hquote, BodyPoint.escaped.inj h⟩

/-- A value that holds the quote around it holds **both quotes**. -/
theorem both_of_quoteFor_mem {value : Text} (h : quoteFor value ∈ value) :
    .scalar '\'' ∈ value ∧ .scalar '"' ∈ value := by
  unfold quoteFor at h
  split at h
  · next hdouble =>
    simp only [Bool.and_eq_true, Bool.not_eq_true', List.contains_eq_mem, decide_eq_true_eq,
      decide_eq_false_iff_not] at hdouble
    exact absurd h hdouble.2
  · next hsingle =>
    refine ⟨h, ?_⟩
    simpa [h] using hsingle

/-- **What stands between the quotes.** A string literal is a body between two quotes of one kind.
Read from left to right, a backslash together with what it escapes, the body ends with no escape cut
short and has no quote of that kind and no line break in it but escaped ones; its value is the one
that was written; and it has an escaped quote only if the value has both kinds of quotes. -/
theorem stringLiteral_exactly (value : Text) :
    ∃ q body points, IsQuote q ∧ stringLiteral value = .scalar q :: body ++ [.scalar q] ∧
      bodyPoints? body = some points ∧
      (∀ c, .plain c ∈ points → c ≠ .scalar q ∧ c ≠ .scalar '\n' ∧ c ≠ .scalar '\r') ∧
      unescape body = .ok value ∧
      ((∃ q', IsQuote q' ∧ .escaped (.scalar q') ∈ points) →
        .scalar '\'' ∈ value ∧ .scalar '"' ∈ value) := by
  obtain ⟨q, hq, hquote⟩ := exists_isQuote_quoteFor value
  refine ⟨q, _, _, hq, by rw [stringLiteral, hquote], bodyPoints?_quoted (.scalar q) value, ?_,
    unescape_quoted hq value, ?_⟩
  · intro c hc
    obtain ⟨d, -, hd⟩ := List.mem_map.1 hc
    exact of_quotedBodyPoint_eq_plain hd
  · rintro ⟨q', hq', hmem⟩
    obtain ⟨d, hd, hescaped⟩ := List.mem_map.1 hmem
    obtain ⟨rfl, -⟩ := of_quotedBodyPoint_eq_escaped hq' hescaped
    exact both_of_quoteFor_mem (hquote ▸ hd)

end ScriptTree
