import Mathlib.Data.List.Basic
import ScriptTree.Grammar.Lexeme

/-!
# Literals read back

A value that is written as a string literal or as the text of a template **reads back**: the body
has the value, and where a script is cut into lexemes the literal ends where it was written to end,
whatever follows it. A text of a template may be followed by the closing backtick or by a
substitution, but not by an opening brace, which would join a dollar sign at its end.

## Main results

* `unescape_quoted`, `string?_stringLiteral`: string literals.
* `unescape_templateText`, `templateChars?_templateText`: texts of templates.
-/

namespace ScriptTree

open List

/-! ### Values -/

/-- An escape of one code point stands for what the escape says. -/
theorem unescapeFrom_escape (c : CodePoint) {d : CodePoint} {rest : Text}
    (h : escapeAt (d :: rest) = .ok ([c], 1)) :
    unescapeFrom 0 (.scalar '\\' :: d :: rest) = (unescapeFrom 0 rest).map (c :: ·) := by
  simp only [h, unescapeFrom]
  rfl

theorem unescapeFrom_plain {c : CodePoint} {rest : Text} (hc : c ≠ .scalar '\\') :
    unescapeFrom 0 (c :: rest) = (unescapeFrom 0 rest).map (c :: ·) := by
  rw [unescapeFrom]
  simp only [if_neg hc]

/-- The quotes that values are written with. -/
def IsQuote (q : Char) : Prop := q = '\'' ∨ q = '"'

theorem exists_isQuote_quoteFor (value : Text) : ∃ q, IsQuote q ∧ quoteFor value = .scalar q := by
  unfold quoteFor
  split
  · exact ⟨'"', .inr rfl, rfl⟩
  · exact ⟨'\'', .inl rfl, rfl⟩

/-- A code point of a value, as written between quotes, has its **own value**. -/
theorem unescapeFrom_quotedPoint {q : Char} (hq : IsQuote q) (c : CodePoint) (rest : Text) :
    unescapeFrom 0 (quotedPoint (.scalar q) c ++ rest)
      = (unescapeFrom 0 rest).map (c :: ·) := by
  unfold quotedPoint
  split_ifs with hbackslash hline hreturn hquote
  · subst hbackslash
    exact unescapeFrom_escape _ rfl
  · subst hline
    exact unescapeFrom_escape _ rfl
  · subst hreturn
    exact unescapeFrom_escape _ rfl
  · subst hquote
    rcases hq with rfl | rfl <;> exact unescapeFrom_escape _ rfl
  · exact unescapeFrom_plain hbackslash

/-- The body of a **string literal** has the value that was written. -/
theorem unescape_quoted {q : Char} (hq : IsQuote q) (value : Text) :
    unescape (value.mapText (quotedPoint (.scalar q))) = .ok value := by
  unfold unescape Text.mapText
  induction value with
  | nil => rfl
  | cons c value ih =>
    rw [flatMap_cons, unescapeFrom_quotedPoint hq, ih]
    rfl

/-- The **text of a template** has the value that was written. -/
theorem unescape_templateText (value : Text) : unescape (templateText value) = .ok value := by
  unfold unescape
  fun_induction templateText value with
  | case1 cs ih =>
    rw [unescapeFrom_escape (.scalar '$') rfl, unescapeFrom_plain (by decide), ih]
    rfl
  | case2 cs ih =>
    rw [unescapeFrom_escape (.scalar '\\') rfl, ih]
    rfl
  | case3 cs ih =>
    rw [unescapeFrom_escape (.scalar '\x60') rfl, ih]
    rfl
  | case4 c cs _ hplain _ ih =>
    rw [unescapeFrom_plain hplain, ih]
    rfl
  | case5 => rfl

/-! ### Lexemes -/

theorem ofChars_eq_append {l : List Char} {s t : Text} (h : s ++ t = Text.ofChars l) :
    ∃ l₁ l₂, l = l₁ ++ l₂ ∧ s = Text.ofChars l₁ ∧ t = Text.ofChars l₂ := by
  obtain ⟨l₁, l₂, rfl, hs, ht⟩ := map_eq_append_iff.1 h.symm
  exact ⟨l₁, l₂, rfl, hs.symm, ht.symm⟩

theorem ofChars_injective {l l' : List Char} (h : Text.ofChars l = Text.ofChars l') : l = l' := by
  have := congrArg Text.chars? h
  simpa using this

/-- An escape of one character inside quotes is passed over. -/
theorem stringFrom?_escape {q c : Char} {rest : List Char} (hq : IsQuote q)
    (h : Lexeme.stringEscape (c :: rest) = 1) :
    Lexeme.stringFrom? q 0 ('\\' :: c :: rest) = (Lexeme.stringFrom? q 0 rest).map (· + 2) := by
  have hne : '\\' ≠ q := by
    rcases hq with rfl | rfl <;> decide
  simp only [Lexeme.stringFrom?, if_neg hne, ↓reduceIte, h, Option.map_map, Function.comp_def]

theorem stringFrom?_plain {q c : Char} {rest : List Char} (hq : c ≠ q) (hc : c ≠ '\\')
    (hline : c ≠ '\n') (hreturn : c ≠ '\r') :
    Lexeme.stringFrom? q 0 (c :: rest) = (Lexeme.stringFrom? q 0 rest).map (· + 1) := by
  simp only [Lexeme.stringFrom?, if_neg hq, if_neg hc, hline, hreturn, or_self, ↓reduceIte]

/-- A code point written between quotes is **passed over**. -/
theorem stringFrom?_quotedPoint {q : Char} (hq : IsQuote q) {c : CodePoint} {l : List Char}
    (h : quotedPoint (.scalar q) c = Text.ofChars l) (rest : List Char) :
    Lexeme.stringFrom? q 0 (l ++ rest) = (Lexeme.stringFrom? q 0 rest).map (· + l.length) := by
  unfold quotedPoint at h
  split_ifs at h with hbackslash hline hreturn hquote
  · obtain rfl : ['\\', '\\'] = l := ofChars_injective h
    exact stringFrom?_escape hq rfl
  · obtain rfl : ['\\', 'n'] = l := ofChars_injective h
    exact stringFrom?_escape hq rfl
  · obtain rfl : ['\\', 'r'] = l := ofChars_injective h
    exact stringFrom?_escape hq rfl
  · obtain rfl : ['\\', q] = l := ofChars_injective h
    exact stringFrom?_escape hq (by rcases hq with rfl | rfl <;> rfl)
  · cases l with
    | nil => simp [Text.ofChars] at h
    | cons x l =>
      obtain ⟨rfl, hl⟩ := List.cons.inj h
      obtain rfl : [] = l := ofChars_injective hl
      simp only [CodePoint.scalar.injEq] at hbackslash hline hreturn hquote
      exact stringFrom?_plain hquote hbackslash hline hreturn

theorem stringFrom?_quoted {q : Char} (hq : IsQuote q) {value : Text} {l : List Char}
    (h : value.mapText (quotedPoint (.scalar q)) = Text.ofChars l) (rest : List Char) :
    Lexeme.stringFrom? q 0 (l ++ q :: rest) = some (l.length + 1) := by
  unfold Text.mapText at h
  induction value generalizing l with
  | nil =>
    obtain rfl : [] = l := ofChars_injective h
    simp [Lexeme.stringFrom?]
  | cons c value ih =>
    obtain ⟨l₁, l₂, rfl, h₁, h₂⟩ := ofChars_eq_append h
    rw [append_assoc, stringFrom?_quotedPoint hq h₁, ih h₂]
    simp only [Option.map_some, length_append, Option.some.injEq]
    omega

/-- A **string literal** is one lexeme, whatever follows it. -/
theorem string?_stringLiteral {value : Text} {l : List Char}
    (h : stringLiteral value = Text.ofChars l) (rest : List Char) :
    Lexeme.string? (l ++ rest) = some l.length := by
  obtain ⟨q, hq, hquote⟩ := exists_isQuote_quoteFor value
  rw [stringLiteral, hquote] at h
  obtain ⟨l₁, l₂, rfl, h₁, h₂⟩ := ofChars_eq_append h
  obtain rfl : [q] = l₂ := ofChars_injective h₂
  cases l₁ with
  | nil => simp [Text.ofChars] at h₁
  | cons x body =>
    obtain ⟨hx, hbody⟩ := List.cons.inj h₁
    obtain rfl := CodePoint.scalar.inj hx
    have hread := stringFrom?_quoted hq hbody rest
    have hq' : q = '"' ∨ q = '\'' := hq.symm
    simp only [List.cons_append, List.append_assoc, List.nil_append, Lexeme.string?, if_pos hq',
      hread]
    simp

theorem templateFrom?_escape {c : Char} {rest : List Char}
    (h : Lexeme.stringEscape (c :: rest) = 1) :
    Lexeme.templateFrom? 0 ('\\' :: c :: rest)
      = (Lexeme.templateFrom? 0 rest).map (· + 2) := by
  have htick : '\\' ≠ '\x60' := by decide
  have hdollar : '\\' ≠ '$' := by decide
  simp only [Lexeme.templateFrom?, if_neg htick, hdollar, false_and, ↓reduceIte, h,
    Option.map_map, Function.comp_def]

theorem templateFrom?_plain {c : Char} {rest : List Char} (htick : c ≠ '\x60')
    (hbackslash : c ≠ '\\') (hdollar : ¬(c = '$' ∧ rest.head? = some '\x7b')) :
    Lexeme.templateFrom? 0 (c :: rest) = (Lexeme.templateFrom? 0 rest).map (· + 1) := by
  simp only [Lexeme.templateFrom?, if_neg htick, if_neg hdollar, if_neg hbackslash]

/-- A brace that a text of a template starts with is the first code point of the value. -/
theorem head?_of_head?_templateText {value : Text}
    (h : (templateText value).head? = some (.scalar '\x7b')) :
    value.head? = some (.scalar '\x7b') := by
  fun_cases templateText value with
  | case1 cs => simp [templateText] at h
  | case2 cs => simp [templateText] at h
  | case3 cs => simp [templateText] at h
  | case4 c cs hdollar hbackslash htick =>
    rw [templateText] at h
    · exact h
    · exact hdollar
    · exact hbackslash
    · exact htick
  | case5 => simp [templateText] at h

/-- An escaped character in the text of a template is passed over with its backslash. -/
theorem exists_of_escaped {c : Char} {t : Text} {l : List Char} (tail : List Char)
    (hc : ∀ rest, Lexeme.stringEscape (c :: rest) = 1)
    (h : .scalar '\\' :: .scalar c :: t = Text.ofChars l) :
    ∃ l', t = Text.ofChars l' ∧ l.length = l'.length + 2
      ∧ Lexeme.templateFrom? 0 (l ++ tail)
        = (Lexeme.templateFrom? 0 (l' ++ tail)).map (· + 2) := by
  obtain ⟨l₁, l', rfl, h₁, h₂⟩ := ofChars_eq_append (s := [.scalar '\\', .scalar c]) h
  obtain rfl : ['\\', c] = l₁ := ofChars_injective h₁
  exact ⟨l', h₂, by simp, templateFrom?_escape (hc _)⟩

theorem exists_of_plain {c : CodePoint} {t : Text} {l : List Char}
    (h : c :: t = Text.ofChars l) :
    ∃ x l', c = .scalar x ∧ t = Text.ofChars l' ∧ l = x :: l' := by
  cases l with
  | nil => simp [Text.ofChars] at h
  | cons x l' =>
    obtain ⟨hx, hl⟩ := List.cons.inj h
    exact ⟨x, l', hx, hl, rfl⟩

/-- The **text of a template** is passed over up to what follows it. -/
theorem templateChars?_templateText {value : Text} {l tail : List Char}
    (h : templateText value = Text.ofChars l) (htail : Lexeme.templateChars? tail = some 0)
    (hbrace : tail.head? ≠ some '\x7b') :
    Lexeme.templateChars? (l ++ tail) = some l.length := by
  unfold Lexeme.templateChars? at htail ⊢
  fun_induction templateText value generalizing l with
  | case1 cs ih =>
    obtain ⟨l', hl', hlength, heq⟩ := exists_of_escaped tail (fun _ ↦ rfl) h
    obtain ⟨x, l'', hx, hl'', rfl⟩ := exists_of_plain hl'
    obtain rfl := CodePoint.scalar.inj hx
    rw [heq, List.cons_append, templateFrom?_plain (by decide) (by decide) (by simp), ih hl'']
    simpa using hlength.symm
  | case2 cs ih =>
    obtain ⟨l', hl', hlength, heq⟩ := exists_of_escaped tail (fun _ ↦ rfl) h
    rw [heq, ih hl']
    simpa using hlength.symm
  | case3 cs ih =>
    obtain ⟨l', hl', hlength, heq⟩ := exists_of_escaped tail (fun _ ↦ rfl) h
    rw [heq, ih hl']
    simpa using hlength.symm
  | case4 c cs hdollar hbackslash htick ih =>
    obtain ⟨x, l', rfl, hl', rfl⟩ := exists_of_plain h
    -- A dollar sign is not followed by a brace, neither in the value nor after it.
    have hapart : ¬(x = '$' ∧ (l' ++ tail).head? = some '\x7b') := by
      rintro ⟨rfl, hhead⟩
      cases l' with
      | nil => exact hbrace hhead
      | cons y l'' =>
        obtain rfl : y = '\x7b' := by simpa using hhead
        have hvalue : cs.head? = some (.scalar '\x7b') :=
          head?_of_head?_templateText (by rw [hl']; rfl)
        cases cs with
        | nil => simp at hvalue
        | cons d ds =>
          obtain rfl : d = .scalar '\x7b' := by simpa using hvalue
          exact hdollar _ rfl rfl
    rw [List.cons_append, templateFrom?_plain (fun hx ↦ htick (by rw [hx]))
      (fun hx ↦ hbackslash (by rw [hx])) hapart, ih hl']
    simp
  | case5 =>
    obtain rfl : [] = l := ofChars_injective h
    exact htail

end ScriptTree
