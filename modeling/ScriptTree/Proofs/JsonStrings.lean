import ScriptTree.LogRecord
import ScriptTree.Proofs.EnumNumbers
import ScriptTree.Proofs.Escapes
import ScriptTree.Proofs.Quoting

/-!
# JSON strings read as literals

Compiled enums, compiled markup and log records quote text as JSON, and what reads it may be a
script. The escapes of JSON are among those of scripts, so a quoted text **reads back**, with one
reservation: above U+FFFF the form in plain ASCII writes the two halves of a surrogate pair, and
these are read one by one. What comes back has the same units in UTF-16, which is all that a script
sees of a string.

`JsonString.Writes` says what a part of a body does whatever stands after it. It holds of each way
to write a code point, and of two parts put side by side.

## Main results

* `JsonString.writes_point`: a code point as it is written.
* `JsonString.isLiteral_quote`: a text as it is quoted.
* `quoted_readsBack`: the literals in enums, markup and log records.
-/

namespace ScriptTree

open List
variable {ascii : Bool} {n : Nat} {c : CodePoint} {t w w' : Text} {us us' : List Nat}

/-! ### UTF-16 -/

namespace CodePoint

/-- The **units** of a code point in UTF-16: its number, or two halves with ten bits each of what
the number is above U+FFFF. -/
def utf16 (c : CodePoint) : List Nat :=
  if c.toNat < 0x10000 then [c.toNat]
  else [0xD800 ||| (c.toNat - 0x10000) >>> 10, 0xDC00 ||| (c.toNat - 0x10000) &&& 0x3FF]

theorem toNat_lt (c : CodePoint) : c.toNat < 0x110000 := by
  cases c with
  | scalar c => exact Nat.lt_succ_of_le c.toNat_le_max
  | surrogate half =>
    have := half.isLt
    simp only [toNat]
    omega

theorem toNat_of_ofNat? (h : ofNat? n = some c) : c.toNat = n := by
  unfold ofNat? at h
  split at h
  · cases h
    simp only [toNat]
    omega
  · split at h
    · cases h
      rw [toNat, Char.toNat_ofNat, if_pos (by simp only [Nat.isValidChar]; omega)]
    · cases h

theorem units_eq_utf16 (c : CodePoint) : JsonString.units c = c.utf16 := by
  unfold JsonString.units utf16
  dsimp only
  split
  · rfl
  · have hlt := c.toNat_lt
    have hhigh : (c.toNat - 0x10000) / 2 ^ 10 < 2 ^ 10 := by omega
    have hlow : (c.toNat - 0x10000) % 2 ^ 10 < 2 ^ 10 := Nat.mod_lt _ (by decide)
    rw [Nat.shiftRight_eq_div_pow, show 0x3FF = 2 ^ 10 - 1 from rfl, Nat.and_two_pow_sub_one_eq_mod]
    exact congrArg₂ (fun a b ↦ [a, b]) (Nat.shiftLeft_add_eq_or_of_lt hhigh 0x36)
      (Nat.shiftLeft_add_eq_or_of_lt hlow 0x37)

theorem lt_of_mem_units (h : n ∈ JsonString.units c) : n < 0x10000 := by
  have hlt := c.toNat_lt
  unfold JsonString.units at h
  dsimp only at h
  split at h
  · simp only [mem_singleton] at h
    omega
  · simp only [mem_cons, not_mem_nil, or_false] at h
    omega

end CodePoint

/-! ### Bodies -/

namespace JsonString

/-- A part of a body that **writes** units of UTF-16, whatever follows it: it has no character below
U+0020, in plain ASCII none above U+007F, and no quote that is not escaped, and it is read as text
with these units. -/
structure Writes (ascii : Bool) (us : List Nat) (w : Text) : Prop where
  shown : ∀ c ∈ w, 0x20 ≤ c.toNat ∧ (ascii = true → c.toNat < 0x80)
  points : ∃ ps, .plain (.scalar '"') ∉ ps ∧
    ∀ rest, bodyPoints? (w ++ rest) = (bodyPoints? rest).map (ps ++ ·)
  reads : ∃ v, v.flatMap CodePoint.utf16 = us ∧
    ∀ rest, unescape (w ++ rest) = (unescape rest).map (v ++ ·)

theorem writes_nil : Writes ascii [] [] :=
  ⟨by simp, ⟨[], by simp, by simp⟩, ⟨[], rfl, fun rest ↦ by
    cases h : unescape rest <;> simp [h, Except.map]⟩⟩

theorem Writes.append (h : Writes ascii us w) (h' : Writes ascii us' w') :
    Writes ascii (us ++ us') (w ++ w') := by
  obtain ⟨ps, hquote, hps⟩ := h.points
  obtain ⟨ps', hquote', hps'⟩ := h'.points
  obtain ⟨v, hunits, hv⟩ := h.reads
  obtain ⟨v', hunits', hv'⟩ := h'.reads
  refine ⟨fun c hc ↦ (mem_append.1 hc).elim (h.shown c) (h'.shown c),
    ⟨ps ++ ps', ?_, fun rest ↦ ?_⟩,
    ⟨v ++ v', by rw [flatMap_append, hunits, hunits'], fun rest ↦ ?_⟩⟩
  · rw [mem_append, not_or]
    exact ⟨hquote, hquote'⟩
  · rw [append_assoc, hps, hps', Option.map_map]
    simp only [Function.comp_def, append_assoc]
  · rw [append_assoc, hv, hv']
    cases unescape rest <;> simp [Except.map]

theorem writes_plain (hquote : c ≠ .scalar '"') (hbackslash : c ≠ .scalar '\\')
    (hshown : 0x20 ≤ c.toNat ∧ (ascii = true → c.toNat < 0x80)) : Writes ascii c.utf16 [c] :=
  ⟨by simpa using hshown, ⟨[.plain c], by simpa using Ne.symm hquote,
    fun rest ↦ bodyPoints?_plain hbackslash rest⟩,
    ⟨[c], by simp, fun _ ↦ unescapeFrom_plain hbackslash⟩⟩

/-- A character after a backslash that **names** a code point. -/
theorem writes_short {d : Char} (hd : 0x20 ≤ d.toNat ∧ d.toNat < 0x80)
    (h : ∀ rest, escapeAt (.scalar d :: rest) = .ok ([c], 1)) :
    Writes ascii c.utf16 [.scalar '\\', .scalar d] := by
  refine ⟨fun e he ↦ ?_, ⟨[.escaped (.scalar d)], by simp, bodyPoints?_escaped (.scalar d)⟩,
    ⟨[c], by simp, fun rest ↦ unescapeFrom_escape c (h rest)⟩⟩
  rcases mem_pair.1 he with rfl | rfl
  · exact ⟨by decide, fun _ ↦ by decide⟩
  · exact ⟨hd.1, fun _ ↦ hd.2⟩

/-! ### Units as escapes -/

/-- The digits of a number are those of its sixteenth, and **one more**. -/
theorem hexDigits_succ {width : Nat} (hwidth : 0 < width) (n : Nat) :
    hexDigits (width + 1) n = hexDigits width (n / 16) ++ [.scalar (Nat.digitChar (n % 16))] := by
  unfold hexDigits Text.ofChars
  rw [Nat.toDigits_eq_if (by decide)]
  split
  · next h =>
    obtain ⟨k, rfl⟩ := Nat.exists_eq_add_of_lt hwidth
    rw [Nat.div_eq_of_lt h, Nat.mod_eq_of_lt h, Nat.toDigits_zero]
    simp [← replicate_succ', Nat.add_comm]
  · simp

/-- The digit of a number below sixteen. -/
def hexDigit (k : Nat) : CodePoint := .scalar (Nat.digitChar k)

theorem hexDigit_cases : ∀ k < 16, isHexDigit (hexDigit k) = true ∧
    ((hexDigit k).char?.bind hexValue?).getD 0 = k ∧ hexDigit k ≠ .scalar '"' ∧
    hexDigit k ≠ .scalar '\\' ∧ 0x20 ≤ (hexDigit k).toNat ∧ (hexDigit k).toNat < 0x80 := by
  decide

/-- A unit is written with **four digits**, which spell it. -/
theorem exists_hexDigits_eq (h : n < 0x10000) : ∃ ks : List Nat, (∀ k ∈ ks, k < 16) ∧
    hexDigits 4 n = ks.map hexDigit ∧ ks.length = 4 ∧ digitsValue 16 (hexDigits 4 n) = n := by
  have hlt : n / 16 / 16 / 16 < 16 := by omega
  have hmod (m : Nat) : m % 16 < 16 := Nat.mod_lt _ (by decide)
  have hone : hexDigits 1 (n / 16 / 16 / 16) = [hexDigit (n / 16 / 16 / 16)] := by
    rw [hexDigits, Nat.toDigits_of_lt_base hlt]
    rfl
  have heq : hexDigits 4 n
      = [n / 16 / 16 / 16, n / 16 / 16 % 16, n / 16 % 16, n % 16].map hexDigit := by
    rw [hexDigits_succ (by decide), hexDigits_succ (by decide), hexDigits_succ (by decide), hone]
    rfl
  refine ⟨_, by simp [hlt, hmod], heq, rfl, ?_⟩
  simp only [heq, digitsValue, map_cons, map_nil, foldl_cons, foldl_nil,
    (hexDigit_cases _ hlt).2.1, (hexDigit_cases _ (hmod _)).2.1]
  omega

theorem writes_digits {ks : List Nat} (h : ∀ k ∈ ks, k < 16) :
    Writes ascii ((ks.map hexDigit).flatMap CodePoint.utf16) (ks.map hexDigit) := by
  induction ks with
  | nil => exact writes_nil
  | cons k ks ih =>
    obtain ⟨-, -, hquote, hbackslash, hlow, hhigh⟩ := hexDigit_cases k (h k mem_cons_self)
    exact (writes_plain hquote hbackslash ⟨hlow, fun _ ↦ hhigh⟩).append
      (ih fun l hl ↦ h l (mem_cons_of_mem _ hl))

theorem writes_unit (h : n < 0x10000) : Writes ascii [n] (unitEscape n) := by
  obtain ⟨ks, hks, heq, hlength, hvalue⟩ := exists_hexDigits_eq h
  have hdigits : Writes ascii _ (ks.map hexDigit) := writes_digits hks
  obtain ⟨ps, hquote, hps⟩ := hdigits.points
  obtain ⟨c, hc⟩ := exists_ofNat? (h.le.trans (by decide))
  have htext : unitEscape n = .scalar '\\' :: .scalar 'u' :: ks.map hexDigit := heq ▸ rfl
  refine ⟨fun e he ↦ ?_, ⟨.escaped (.scalar 'u') :: ps, by simpa using hquote, fun rest ↦ ?_⟩,
    ⟨[c], ?_, fun rest ↦ ?_⟩⟩
  · rw [htext, mem_cons, mem_cons] at he
    rcases he with rfl | rfl | he
    · exact ⟨by decide, fun _ ↦ by decide⟩
    · exact ⟨by decide, fun _ ↦ by decide⟩
    · exact hdigits.shown e he
  · rw [htext, cons_append, cons_append, bodyPoints?_escaped, hps, Option.map_map]
    rfl
  · simp [CodePoint.utf16, CodePoint.toNat_of_ofNat? hc, h]
  · have hstands : (Escape.fixed 'u' (ks.map hexDigit)).Stands rest := by
      refine ⟨by rw [length_map, hlength]; decide, all_eq_true.2 fun d hd ↦ ?_⟩
      obtain ⟨k, hk, rfl⟩ := mem_map.1 hd
      exact (hexDigit_cases k (hks k hk)).1
    have hescape := escapeAt_fixed hstands
    rw [← heq, hvalue, hc, heq] at hescape
    rw [htext, cons_append, cons_append, unescape_of_escapeAt hescape, drop_succ_cons, drop_left]
    rfl

theorem writes_units (h : ∀ n ∈ us, n < 0x10000) : Writes ascii us (us.flatMap unitEscape) := by
  induction us with
  | nil => exact writes_nil
  | cons n us ih =>
    exact (writes_unit (h n mem_cons_self)).append (ih fun m hm ↦ h m (mem_cons_of_mem _ hm))

/-! ### Literals -/

/-- A code point **as it is written**, in one of the seven short ways, as units, or as it is. -/
theorem writes_point (ascii : Bool) (c : CodePoint) : Writes ascii c.utf16 (point ascii c) := by
  unfold point
  split
  case h_8 hquote hbackslash _ _ _ _ _ =>
    dsimp only
    split
    · rw [← CodePoint.units_eq_utf16]
      exact writes_units fun n ↦ CodePoint.lt_of_mem_units
    · next hshown =>
      simp only [Bool.or_eq_true, Bool.and_eq_true, decide_eq_true_eq, not_or, not_and] at hshown
      refine writes_plain hquote hbackslash ⟨by omega, fun hascii ↦ ?_⟩
      have := hshown.2 hascii
      omega
  all_goals exact writes_short (by decide) fun _ ↦ rfl

/-- A **literal** of a text: double quotes around a body with no character below U+0020, so on one
line, in plain ASCII none above U+007F, in which every double quote is escaped, and which is read as
text with the same units. -/
def IsLiteral (ascii : Bool) (value literal : Text) : Prop :=
  ∃ body points v, literal = .scalar '"' :: body ++ [.scalar '"'] ∧
    (∀ c ∈ body, 0x20 ≤ c.toNat ∧ (ascii = true → c.toNat < 0x80)) ∧
    bodyPoints? body = some points ∧ .plain (.scalar '"') ∉ points ∧
    unescape body = .ok v ∧ v.flatMap CodePoint.utf16 = value.flatMap CodePoint.utf16

/-- A text is **quoted** as a literal of it. -/
theorem isLiteral_quote (ascii : Bool) (t : Text) : IsLiteral ascii t (quote ascii t) := by
  have hwrites : Writes ascii (t.flatMap CodePoint.utf16) (t.mapText (point ascii)) := by
    induction t with
    | nil => exact writes_nil
    | cons c t ih => exact (writes_point ascii c).append ih
  obtain ⟨ps, hquote, hps⟩ := hwrites.points
  obtain ⟨v, hunits, hv⟩ := hwrites.reads
  refine ⟨_, ps, v, rfl, hwrites.shown, ?_, hquote, ?_, hunits⟩
  · simpa [bodyPoints?] using hps []
  · simpa [unescape, unescapeFrom, Except.map] using hv []

end JsonString

/-! ### Log records -/

namespace Json

/-- The **texts** of a value: its strings and the names of its fields. -/
inductive Spells : Json → Text → Prop
  | string {t : Text} : Spells (.string t) t
  | item {items : List Json} {x : Json} {t : Text} (hx : x ∈ items) (h : Spells x t) :
      Spells (.array items) t
  | name {fields : List (Text × Json)} {f : Text × Json} (hf : f ∈ fields) :
      Spells (.object fields) f.1
  | field {fields : List (Text × Json)} {f : Text × Json} {t : Text} (hf : f ∈ fields)
      (h : Spells f.2 t) : Spells (.object fields) t

theorem isInfix_renderItems {x : Json} {items : List Json} (h : x ∈ items) :
    x.render <:+: renderItems items := by
  induction items with
  | nil => simp at h
  | cons y ys ih =>
    cases ys with
    | nil => exact mem_singleton.1 h ▸ infix_refl _
    | cons z zs =>
      rw [renderItems]
      · rcases mem_cons.1 h with rfl | h
        · exact ((prefix_append _ _).trans (prefix_append _ _)).isInfix
        · exact (ih h).trans (suffix_append _ _).isInfix
      · simp

theorem isInfix_renderFields {f : Text × Json} {fields : List (Text × Json)} (h : f ∈ fields) :
    JsonString.quote true f.1 ++ (": " : Text) ++ f.2.render <:+: renderFields fields := by
  induction fields with
  | nil => simp at h
  | cons g gs ih =>
    cases gs with
    | nil => exact mem_singleton.1 h ▸ infix_refl _
    | cons i is =>
      rw [renderFields]
      · rcases mem_cons.1 h with rfl | h
        · exact ((prefix_append _ _).trans (prefix_append _ _)).isInfix
        · exact (ih h).trans (suffix_append _ _).isInfix
      · simp

/-- Every text of a value is **quoted** where the value is written. -/
theorem Spells.isInfix_render {j : Json} (h : j.Spells t) :
    JsonString.quote true t <:+: j.render := by
  induction h with
  | string => exact infix_refl _
  | item hx _ ih => exact ih.trans ((isInfix_renderItems hx).trans (infix_append _ _ _))
  | name hf =>
    exact ((prefix_append _ _).trans (prefix_append _ _)).isInfix.trans
      ((isInfix_renderFields hf).trans (infix_append _ _ _))
  | field hf _ ih =>
    exact ih.trans ((suffix_append _ _).isInfix.trans
      ((isInfix_renderFields hf).trans (infix_append _ _ _)))

end Json

open JsonString Transform in
/-- **Quoted text reads back.** Every text is quoted as a literal of it, in both forms. The name of
a member of an enum is written so in plain ASCII, an attribute and a run of text of markup in the
other form, and each text of a log record, in its line, in plain ASCII. -/
theorem quoted_readsBack :
    (∀ ascii t, IsLiteral ascii t (quote ascii t)) ∧
      (∀ tree edits name state member state',
        enumMember tree edits name state member = .ok state' →
        ∃ key literal value reverse, memberKey tree (memberName member) = .ok key ∧
          IsLiteral true key literal ∧ state'.previous = memberAccess name literal ∧
          state'.assignments
            = state.assignments ++ [memberAssignment name literal value reverse]) ∧
      (∀ tree edits value text, value.kind = "string" → tree.nodeText value = .ok text →
        ∃ literal, attributeValue tree edits value = .ok literal ∧
          IsLiteral false (Entity.decode (text.drop 1).dropLast) literal) ∧
      (∀ tree start stop text, tree.rangeText start stop = .ok text → cleanText text ≠ [] →
        ∃ literal, textArgument tree start stop = .ok [literal] ∧
          IsLiteral false (Entity.decode (cleanText text)) literal) ∧
      ∀ r t, (Json.object (LogRecord.fields r)).Spells t →
        ∃ literal, IsLiteral true t literal ∧ literal <:+: r.line := by
  refine ⟨isLiteral_quote, ?_, ?_, ?_, ?_⟩
  · intro tree edits name state member state' h
    rw [enumMember_eq, bind_eq_ok_iff] at h
    obtain ⟨key, hkey, h⟩ := h
    obtain ⟨⟨value, number, reverse⟩, -, h⟩ := bind_eq_ok_iff.1 h
    obtain rfl := pure_eq_ok_iff.1 h
    exact ⟨key, _, value, reverse, hkey, isLiteral_quote true key, rfl, rfl⟩
  · intro tree edits value text hkind htext
    refine ⟨_, ?_, isLiteral_quote false _⟩
    rw [attributeValue, hkind, htext]
    rfl
  · intro tree start stop text htext hne
    refine ⟨_, ?_, isLiteral_quote false _⟩
    rw [textArgument, htext]
    simp [bind, Except.bind, pure, Except.pure, hne]
  · intro r t ht
    exact ⟨_, isLiteral_quote true t, ht.isInfix_render.trans (prefix_append _ _).isInfix⟩

end ScriptTree
