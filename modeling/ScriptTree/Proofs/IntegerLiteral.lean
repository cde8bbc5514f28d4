import ScriptTree.Number.Numeral
import Mathlib.Data.Nat.Digits.Lemmas
import Mathlib.Tactic.Common

/-!
# Integer literals

An integer literal is written in base ten without a zero in front, or in base 2, 8 or 16 with a mark
for the base, in letters of either case and with underscores among the digits. Its value is told
here by the digits alone. Reading takes every such literal as the **exact** integer, and not as a double,
as long as base ten needs no more digits than are ever read.

## Main results

* `Number.read?_of_integerLiteral`: reading an integer literal.
* `Number.text_natCast`: writing a natural number.
-/

namespace ScriptTree.Number

open List Option
variable {base n : Nat} {c : Char} {cs ds : List Char}

/-- The value of a digit. -/
def digitValue (c : Char) : Nat := (hexValue? c).getD 0

/-- The number that digits **spell**, the most significant of them first. -/
def spelled (base : Nat) (ds : List Char) : Nat := Nat.ofDigits base (ds.map digitValue).reverse

/-- At least one character, all of them **digits** of a base. -/
structure AreDigits (base : Nat) (ds : List Char) : Prop where
  ne_nil : ds ≠ []
  below : ∀ c ∈ ds, ∃ v ∈ hexValue? c, v < base

instance (base : Nat) (ds : List Char) : Decidable (AreDigits base ds) :=
  decidable_of_iff (ds ≠ [] ∧ ds.all fun c ↦ (hexValue? c).any (· < base))
    ⟨fun h ↦ ⟨h.1, by simpa [Option.any_eq_true] using h.2⟩,
      fun h ↦ ⟨h.ne_nil, by simpa [Option.any_eq_true] using h.below⟩⟩

/-- The letters that **mark** a base. -/
def baseMarks : List (Char × Nat) :=
  [('x', 16), ('X', 16), ('o', 8), ('O', 8), ('b', 2), ('B', 2)]

/-- An **integer literal** and its value. Underscores do not count. -/
inductive IntegerLiteral : List Char → Nat → Prop
  | decimal {cs ds : List Char} (hds : cs.filter (· != '_') = ds) (hdigits : AreDigits 10 ds)
      (hzero : ds.head? = some '0' → ds = ['0']) : IntegerLiteral cs (spelled 10 ds)
  | marked {mark : Char} {base : Nat} {cs ds : List Char} (hmark : (mark, base) ∈ baseMarks)
      (hds : cs.filter (· != '_') = ds) (hdigits : AreDigits base ds) :
      IntegerLiteral ('0' :: mark :: cs) (spelled base ds)

/-! ### Digits -/

/-- A digit is one of three runs of characters, with its place in the run. -/
theorem hexValue?_cases {v : Nat} (h : hexValue? c = some v) :
    48 ≤ c.toNat ∧ c.toNat ≤ 57 ∧ c.toNat = v + 48 ∨
      97 ≤ c.toNat ∧ c.toNat ≤ 102 ∧ c.toNat = v + 87 ∨
      65 ≤ c.toNat ∧ c.toNat ≤ 70 ∧ c.toNat = v + 55 := by
  have hle (a b : Char) : a ≤ b ↔ a.toNat ≤ b.toNat := UInt32.le_iff_toNat_le
  simp only [hexValue?, Bool.and_eq_true, decide_eq_true_eq, hle, Char.reduceToNat] at h
  split at h
  · cases h
    omega
  · split at h
    · cases h
      omega
    · split at h
      · cases h
        omega
      · cases h

theorem isSeparator_of_hexValue? {v : Nat} (h : hexValue? c = some v) : isSeparator c = false := by
  have hrange : 48 ≤ c.toNat ∧ c.toNat ≤ 102 := by
    have := hexValue?_cases h
    omega
  simp only [isSeparator, Bool.or_eq_false_iff, Bool.and_eq_false_iff, decide_eq_false_iff_not,
    beq_eq_false_iff_ne]
  omega

theorem spelled_cons (base : Nat) (c : Char) (ds : List Char) :
    spelled base (c :: ds) = base ^ ds.length * digitValue c + spelled base ds := by
  rw [spelled, map_cons, reverse_cons, Nat.ofDigits_append, Nat.ofDigits_singleton,
    length_reverse, length_map, Nat.add_comm, spelled]

/-- Reading digits one after the other gives the number that they **spell**. -/
theorem AreDigits.digits?_eq (h : AreDigits base ds) :
    digits? base ds = some (spelled base ds) := by
  have hfold (n : Nat) : ds.foldlM (fun n c ↦ (hexValue? c).bind fun v ↦
      if v < base then some (n * base + v) else none) n
        = some (n * base ^ ds.length + spelled base ds) := by
    have hbelow := h.below
    clear h
    induction ds generalizing n with
    | nil => simp [spelled]
    | cons c ds ih =>
      obtain ⟨v, hv, hlt⟩ := hbelow c mem_cons_self
      rw [foldlM_cons, hv, bind_some, if_pos hlt]
      refine (ih (n * base + v) fun c hc ↦ hbelow c (mem_cons_of_mem _ hc)).trans ?_
      rw [spelled_cons, digitValue, hv, length_cons]
      congr 1
      simp only [getD_some]
      ring
  rw [digits?, if_neg (by simpa using h.ne_nil), hfold 0, Nat.zero_mul, Nat.zero_add]

/-- Digits without a zero in front spell a number that is **not small**. -/
theorem pow_le_spelled (h : AreDigits 10 (c :: ds)) (hc : c ≠ '0') :
    10 ^ ds.length ≤ spelled 10 (c :: ds) := by
  have hpos : 0 < digitValue c := by
    obtain ⟨v, hv, -⟩ := h.below c mem_cons_self
    rw [digitValue, hv, getD_some]
    refine Nat.pos_of_ne_zero fun hzero ↦ hc (Char.toNat_inj.1 ?_)
    have := hexValue?_cases hv
    simp only [Char.reduceToNat]
    omega
  rw [spelled_cons]
  exact Nat.le_add_right_of_le (Nat.le_mul_of_pos_right _ hpos)

/-! ### Reading -/

theorem natural?_decimal (h : AreDigits 10 ds) (hzero : ds.head? = some '0' → ds = ['0'])
    (hbound : spelled 10 ds < 10 ^ digitLimit) : natural? ds = some (spelled 10 ds) := by
  by_cases hhead : ds.head? = some '0'
  · rw [hzero hhead]
    rfl
  · obtain ⟨c, rest, rfl⟩ := exists_cons_of_ne_nil h.ne_nil
    have hc : c ≠ '0' := by simpa using hhead
    have hlength : rest.length < digitLimit :=
      (Nat.pow_lt_pow_iff_right (by decide)).1 ((pow_le_spelled h hc).trans_lt hbound)
    have hnatural : natural? (c :: rest)
        = if digitLimit < (c :: rest).length then none else digits? 10 (c :: rest) := by
      unfold natural?
      split <;> first | rfl | exact absurd (List.cons.inj ‹_›).1 hc
    rw [hnatural, if_neg (by simpa using hlength), h.digits?_eq]

theorem natural?_marked {mark : Char} (hmark : (mark, base) ∈ baseMarks) (h : AreDigits base ds) :
    natural? ('0' :: mark :: ds) = some (spelled base ds) := by
  rw [← h.digits?_eq]
  simp only [baseMarks, mem_cons, not_mem_nil, or_false] at hmark
  rcases hmark with ⟨rfl, rfl⟩ | ⟨rfl, rfl⟩ | ⟨rfl, rfl⟩ | ⟨rfl, rfl⟩ | ⟨rfl, rfl⟩ | ⟨rfl, rfl⟩ <;>
    rfl

theorem trim_eq_self (h : ∀ c ∈ cs, isSeparator c = false) : trim cs = cs := by
  have hdrop {l : List Char} (hl : ∀ c ∈ l, isSeparator c = false) :
      l.dropWhile isSeparator = l := by
    cases l with
    | nil => rfl
    | cons c l => rw [dropWhile_cons_of_neg (by simp [hl c mem_cons_self])]
  rw [trim, hdrop h, hdrop (fun c hc ↦ h c (mem_reverse.1 hc)), reverse_reverse]

theorem splitSign_of_ne (hminus : cs.head? ≠ some '-') (hplus : cs.head? ≠ some '+') :
    splitSign cs = (false, cs) := by
  unfold splitSign
  split
  · exact absurd rfl hminus
  · exact absurd rfl hplus
  · rfl

/-- A numeral with a natural number and no sign is read as **that integer**. -/
theorem read?_of_natural? (hseparators : ∀ c ∈ cs.filter (· != '_'), isSeparator c = false)
    (hminus : (cs.filter (· != '_')).head? ≠ some '-')
    (hplus : (cs.filter (· != '_')).head? ≠ some '+')
    (h : natural? (cs.filter (· != '_')) = some n) :
    read? (Text.ofChars cs) = some (.integer n) := by
  simp only [read?, Text.chars?_ofChars, bind_eq_bind, bind_some,
    trim_eq_self hseparators, splitSign_of_ne hminus hplus, h]
  rfl

theorem AreDigits.isSeparator_eq_false (h : AreDigits base ds) (hc : c ∈ ds) :
    isSeparator c = false := by
  obtain ⟨v, hv, -⟩ := h.below c hc
  exact isSeparator_of_hexValue? hv

/-- An **integer literal** is read as its exact value. -/
theorem read?_of_integerLiteral (h : IntegerLiteral cs n) (hbound : n < 10 ^ digitLimit) :
    read? (Text.ofChars cs) = some (.integer n) := by
  cases h with
  | decimal hds hdigits hzero =>
    have hhead {c : Char} (hnone : hexValue? c = none) : (cs.filter (· != '_')).head? ≠ some c := by
      intro hc
      rw [hds] at hc
      obtain ⟨v, hv, -⟩ := hdigits.below c (mem_of_mem_head? hc)
      simp [hnone] at hv
    refine read?_of_natural? (fun c hc ↦ ?_) (hhead (by decide)) (hhead (by decide)) ?_
    · rw [hds] at hc
      exact hdigits.isSeparator_eq_false hc
    · rw [hds]
      exact natural?_decimal hdigits hzero hbound
  | @marked mark base cs ds hmark hds hdigits =>
    have hplain : mark ≠ '_' ∧ isSeparator mark = false := by
      revert hmark
      simp only [baseMarks, mem_cons, not_mem_nil, or_false]
      rintro (⟨rfl, rfl⟩ | ⟨rfl, rfl⟩ | ⟨rfl, rfl⟩ | ⟨rfl, rfl⟩ | ⟨rfl, rfl⟩ | ⟨rfl, rfl⟩) <;>
        decide
    have hfilter : ('0' :: mark :: cs).filter (· != '_') = '0' :: mark :: ds := by
      rw [filter_cons_of_pos (by decide), filter_cons_of_pos (by simpa using hplain.1),
        hds]
    refine read?_of_natural? (fun c hc ↦ ?_) (by simp [hfilter]) (by simp [hfilter]) ?_
    · rw [hfilter] at hc
      rcases mem_cons.1 hc with rfl | hc
      · decide
      · rcases mem_cons.1 hc with rfl | hc
        · exact hplain.2
        · exact hdigits.isSeparator_eq_false hc
    · rw [hfilter]
      exact natural?_marked hmark hdigits

/-! ### Writing -/

/-- A natural number is **written** unless it has too many digits. -/
theorem text_natCast (n : Nat) :
    text (.integer n)
      = if n < 10 ^ digitLimit then .ok (Text.ofNat n) else .error .tooManyDigits := by
  have hlength : digitLimit < (Nat.toDigits 10 n).length ↔ ¬ n < 10 ^ digitLimit := by
    rw [← Nat.length_toDigits_le_iff (by decide) (by decide), not_le]
  simp only [text, integerText, Int.natAbs_natCast, hlength, ite_not]
  rfl

end ScriptTree.Number
