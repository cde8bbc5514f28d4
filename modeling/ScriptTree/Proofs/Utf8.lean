import Mathlib.Data.List.Basic
import ScriptTree.Text.Utf8

/-!
# Writing and reading UTF-8

Reading the bytes of characters gives the characters back, so the bytes of a text can be cut at any
place between two characters. Such a place is a **boundary**; the characters between two boundaries
are those whose bytes lie between them.

## Main results

* `Utf8.decode_encodeChars`: reading what was written.
* `Utf8.decode_slice`: reading the bytes between two boundaries.
-/

namespace ScriptTree.Utf8

open List

/-! ### Sizes -/

theorem foldl_size (n : Nat) (cs : List Char) :
    cs.foldl (fun n c => n + c.utf8Size) n = n + size cs := by
  induction cs generalizing n with
  | nil => simp [size]
  | cons c cs ih =>
    have hc := ih (n + c.utf8Size)
    have h0 := ih (0 + c.utf8Size)
    simp only [size, foldl_cons] at hc h0 ⊢
    omega

@[simp] theorem size_nil : size [] = 0 := rfl

@[simp] theorem size_cons (c : Char) (cs : List Char) : size (c :: cs) = c.utf8Size + size cs := by
  rw [size, foldl_cons, foldl_size]
  omega

@[simp] theorem size_append (as bs : List Char) : size (as ++ bs) = size as + size bs := by
  induction as with
  | nil => simp
  | cons a as ih =>
    rw [cons_append, size_cons, size_cons]
    omega

@[simp] theorem encodeChars_nil : encodeChars [] = [] := rfl

@[simp] theorem encodeChars_cons (c : Char) (cs : List Char) :
    encodeChars (c :: cs) = encodeChar c ++ encodeChars cs := rfl

@[simp] theorem encodeChars_append (as bs : List Char) :
    encodeChars (as ++ bs) = encodeChars as ++ encodeChars bs := by
  simp [encodeChars]

/-- Characters take as many bytes as their sizes say. -/
@[simp] theorem length_encodeChars (cs : List Char) : (encodeChars cs).length = size cs := by
  induction cs with
  | nil => rfl
  | cons c cs ih =>
    rw [encodeChars_cons, length_append, ih, size_cons, encodeChar,
      String.length_utf8EncodeChar]

/-! ### One character -/

/-- A byte in the range of the continuation bytes is one. -/
theorem isContinuation_of_toNat {b : UInt8} (hb : 0x80 ≤ b.toNat) (hb' : b.toNat < 0xC0) :
    isContinuation b = true := by
  simp [isContinuation, UInt8.lt_iff_toNat_lt, UInt8.le_iff_toNat_le, hb, hb']

/-- A continuation byte may follow a lead byte unless the number would be too small for its length,
a surrogate or too large. -/
theorem mayFollow_of_toNat {a b : UInt8} (hb : 0x80 ≤ b.toNat) (hb' : b.toNat < 0xC0)
    (he0 : a.toNat = 0xE0 → 0xA0 ≤ b.toNat) (hed : a.toNat = 0xED → b.toNat < 0xA0)
    (hf0 : a.toNat = 0xF0 → 0x90 ≤ b.toNat) (hf4 : a.toNat = 0xF4 → b.toNat < 0x90) :
    mayFollow a b = true := by
  have key : ∀ (n : UInt8) (q : Bool), (a.toNat = n.toNat → q = true) →
      (a != n || q) = true := by
    intro n q h
    by_cases ha : a = n
    · simp [h (by rw [ha])]
    · simp [ha]
  simp only [mayFollow, isContinuation_of_toNat hb hb', Bool.true_and, Bool.and_eq_true]
  exact ⟨⟨⟨key 0xE0 _ fun h ↦ by simpa [UInt8.le_iff_toNat_le] using he0 h,
    key 0xED _ fun h ↦ by simpa [UInt8.lt_iff_toNat_lt] using hed h⟩,
    key 0xF0 _ fun h ↦ by simpa [UInt8.le_iff_toNat_le] using hf0 h⟩,
    key 0xF4 _ fun h ↦ by simpa [UInt8.lt_iff_toNat_lt] using hf4 h⟩

/-- One step of the decoder, by the range of the first byte. -/
alias decodeFrom_def := decodeFrom.eq_def

theorem decodeFrom_one {a : UInt8} (pos : Nat) (rest : Bytes) (ha : a.toNat < 0x80) :
    decodeFrom pos (a :: rest) = (decodeFrom (pos + 1) rest).map (Char.ofNat a.toNat :: ·) := by
  have h : a < 0x80 := by simpa [UInt8.lt_iff_toNat_lt] using ha
  rw [decodeFrom_def]
  simp [h]

/-- A byte that **leads** others is no character of its own, and is not out of range. -/
theorem lead_of_toNat {a : UInt8} (ha : 0xC2 ≤ a.toNat) (ha' : a.toNat < 0xF5) :
    ¬ a < 0x80 ∧ ¬ a < 0xC2 ∧ ¬ 0xF4 < a := by
  refine ⟨?_, ?_, ?_⟩ <;> simp [UInt8.lt_iff_toNat_lt] <;> omega

theorem decodeFrom_two {a b : UInt8} (pos : Nat) (rest : Bytes) (ha : 0xC2 ≤ a.toNat)
    (ha' : a.toNat < 0xE0) (hb : 0x80 ≤ b.toNat) (hb' : b.toNat < 0xC0) :
    decodeFrom pos (a :: b :: rest)
      = (decodeFrom (pos + 2) rest).map
          (Char.ofNat (a.toNat % 32 * 64 + b.toNat % 64) :: ·) := by
  obtain ⟨h₁, h₂, h₃⟩ := @lead_of_toNat a (by omega) (by omega)
  have h₄ : a < 0xE0 := by simpa [UInt8.lt_iff_toNat_lt] using ha'
  have hfollow : mayFollow a b = true :=
    mayFollow_of_toNat hb hb' (by omega) (by omega) (by omega) (by omega)
  rw [decodeFrom_def]
  simp [h₁, h₂, h₃, h₄, hfollow, payload]

theorem decodeFrom_three {a b c : UInt8} (pos : Nat) (rest : Bytes) (ha : 0xE0 ≤ a.toNat)
    (ha' : a.toNat < 0xF0) (hfollow : mayFollow a b = true) (hc : isContinuation c = true) :
    decodeFrom pos (a :: b :: c :: rest)
      = (decodeFrom (pos + 3) rest).map
          (Char.ofNat (a.toNat % 16 * 4096 + b.toNat % 64 * 64 + c.toNat % 64) :: ·) := by
  obtain ⟨h₁, h₂, h₃⟩ := @lead_of_toNat a (by omega) (by omega)
  have h₄ : ¬ a < 0xE0 := by simp [UInt8.lt_iff_toNat_lt]; omega
  have h₅ : a < 0xF0 := by simpa [UInt8.lt_iff_toNat_lt] using ha'
  rw [decodeFrom_def]
  simp [h₁, h₂, h₃, h₄, h₅, hfollow, hc, payload]

theorem decodeFrom_four {a b c d : UInt8} (pos : Nat) (rest : Bytes) (ha : 0xF0 ≤ a.toNat)
    (ha' : a.toNat < 0xF5) (hfollow : mayFollow a b = true) (hc : isContinuation c = true)
    (hd : isContinuation d = true) :
    decodeFrom pos (a :: b :: c :: d :: rest)
      = (decodeFrom (pos + 4) rest).map
          (Char.ofNat (a.toNat % 8 * 262144 + b.toNat % 64 * 4096 + c.toNat % 64 * 64
            + d.toNat % 64) :: ·) := by
  obtain ⟨h₁, h₂, h₃⟩ := @lead_of_toNat a (by omega) (by omega)
  have h₄ : ¬ a < 0xE0 := by simp [UInt8.lt_iff_toNat_lt]; omega
  have h₅ : ¬ a < 0xF0 := by simp [UInt8.lt_iff_toNat_lt]; omega
  rw [decodeFrom_def]
  simp [h₁, h₂, h₃, h₄, h₅, hfollow, hc, hd, payload]

/-- **Reading one character.** The bytes of a character are read as that character, whatever
follows. The four cases are the four lengths of a character. -/
theorem decodeFrom_encodeChar_append (pos : Nat) (c : Char) (rest : Bytes) :
    decodeFrom pos (encodeChar c ++ rest)
      = (decodeFrom (pos + c.utf8Size) rest).map (c :: ·) := by
  -- The surrogates are no characters, which is what `mayFollow` asks after the lead byte ED.
  have hvalid : c.toNat < 0xD800 ∨ (0xDFFF < c.toNat ∧ c.toNat < 0x110000) := c.valid
  have hback : Char.ofNat c.toNat = c := Char.ofNat_toNat c
  have hval : c.val.toNat = c.toNat := rfl
  rw [← String.length_utf8EncodeChar]
  simp only [encodeChar, String.utf8EncodeChar, hval]
  generalize c.toNat = n at hvalid hback
  subst hback
  have hbyte {k : Nat} (hk : k < 256) : (UInt8.ofNat k).toNat = k := by simp; omega
  split
  · have ha := hbyte (show n < 256 by omega)
    rw [cons_append, nil_append, decodeFrom_one pos rest (by omega), ha]
    rfl
  · have hlast := hbyte (show n % 64 + 128 < 256 by omega)
    split
    · have ha := hbyte (show n / 64 % 32 + 192 < 256 by omega)
      rw [cons_append, cons_append, nil_append,
        decodeFrom_two pos rest (by omega) (by omega) (by omega) (by omega), ha, hlast,
        show (n / 64 % 32 + 192) % 32 * 64 + (n % 64 + 128) % 64 = n by omega]
      rfl
    · have hthird := hbyte (show n / 64 % 64 + 128 < 256 by omega)
      split
      · have ha := hbyte (show n / 4096 % 16 + 224 < 256 by omega)
        rw [cons_append, cons_append, cons_append, nil_append,
          decodeFrom_three pos rest (by omega) (by omega)
            (mayFollow_of_toNat (by omega) (by omega) (by omega) (by omega) (by omega) (by omega))
            (isContinuation_of_toNat (by omega) (by omega)), ha, hthird, hlast,
          show (n / 4096 % 16 + 224) % 16 * 4096 + (n / 64 % 64 + 128) % 64 * 64
            + (n % 64 + 128) % 64 = n by omega]
        rfl
      · have ha := hbyte (show n / 262144 % 8 + 240 < 256 by omega)
        have hb := hbyte (show n / 4096 % 64 + 128 < 256 by omega)
        rw [cons_append, cons_append, cons_append, cons_append,
          nil_append,
          decodeFrom_four pos rest (by omega) (by omega)
            (mayFollow_of_toNat (by omega) (by omega) (by omega) (by omega) (by omega) (by omega))
            (isContinuation_of_toNat (by omega) (by omega))
            (isContinuation_of_toNat (by omega) (by omega)), ha, hb, hthird, hlast,
          show (n / 262144 % 8 + 240) % 8 * 262144 + (n / 4096 % 64 + 128) % 64 * 4096
            + (n / 64 % 64 + 128) % 64 * 64 + (n % 64 + 128) % 64 = n by omega]
        rfl

/-! ### Many characters -/

theorem decodeFrom_encodeChars (pos : Nat) (cs : List Char) :
    decodeFrom pos (encodeChars cs) = .ok cs := by
  induction cs generalizing pos with
  | nil => rfl
  | cons c cs ih =>
    rw [encodeChars_cons, decodeFrom_encodeChar_append, ih]
    rfl

/-- **Reading what was written** gives the same characters. -/
theorem decode_encodeChars (cs : List Char) : decode (encodeChars cs) = .ok cs :=
  decodeFrom_encodeChars 0 cs

/-! ### Boundaries -/

/-- Whether a byte offset lies **between two characters**, or at either end. -/
def IsBoundary (cs : List Char) (offset : Nat) : Prop :=
  ∃ before after, cs = before ++ after ∧ offset = size before

theorem IsBoundary.le {cs : List Char} {a : Nat} (h : IsBoundary cs a) : a ≤ size cs := by
  obtain ⟨before, after, rfl, rfl⟩ := h
  simp

theorem isBoundary_zero (cs : List Char) : IsBoundary cs 0 := ⟨[], cs, rfl, rfl⟩

theorem isBoundary_size (cs : List Char) : IsBoundary cs (size cs) := ⟨cs, [], by simp, rfl⟩

/-- Two prefixes of one text that are not longer in bytes are prefixes of each other. -/
theorem prefix_of_size_le {cs as bs : List Char} (ha : as <+: cs) (hb : bs <+: cs)
    (h : size as ≤ size bs) : as <+: bs := by
  rcases List.prefix_or_prefix_of_prefix ha hb with hab | ⟨rest, rfl⟩
  · exact hab
  · -- Every character takes a byte, so there is nothing left over.
    cases rest with
    | nil => simp
    | cons c rest =>
      have hc := c.utf8Size_pos
      simp only [size_append, size_cons] at h
      omega

/-- Two boundaries cut a text into **three pieces**. -/
theorem IsBoundary.split {cs : List Char} {a b : Nat} (ha : IsBoundary cs a) (hb : IsBoundary cs b)
    (hab : a ≤ b) :
    ∃ before mid after, cs = before ++ mid ++ after ∧ a = size before ∧ b = a + size mid := by
  obtain ⟨before, rest, hcs, rfl⟩ := ha
  obtain ⟨before', after, hcs', rfl⟩ := hb
  obtain ⟨mid, rfl⟩ := prefix_of_size_le ⟨rest, hcs.symm⟩ ⟨after, hcs'.symm⟩ hab
  exact ⟨before, mid, after, hcs', rfl, size_append _ _⟩

/-- Characters with the bytes at which they start, the first one at `pos`. -/
def located (pos : Nat) : List Char → List (Nat × Char)
  | [] => []
  | c :: cs => (pos, c) :: located (pos + c.utf8Size) cs

theorem located_append (pos : Nat) (as bs : List Char) :
    located pos (as ++ bs) = located pos as ++ located (pos + size as) bs := by
  induction as generalizing pos with
  | nil => simp [located]
  | cons a as ih => simp [located, ih, Nat.add_assoc]

@[simp] theorem map_snd_located (pos : Nat) (cs : List Char) : (located pos cs).map (·.2) = cs := by
  induction cs generalizing pos with
  | nil => rfl
  | cons c cs ih => simp [located, ih]

theorem bounds_of_mem_located {pos : Nat} {cs : List Char} {q : Nat × Char}
    (h : q ∈ located pos cs) : pos ≤ q.1 ∧ q.1 < pos + size cs := by
  induction cs generalizing pos with
  | nil => simp [located] at h
  | cons c cs ih =>
    have hc := c.utf8Size_pos
    rw [size_cons]
    rcases mem_cons.1 h with rfl | h
    · exact ⟨Nat.le_refl _, by simp only; omega⟩
    · have := ih h
      omega

theorem exists_of_mem_located {pos : Nat} {cs : List Char} {q : Nat × Char}
    (h : q ∈ located pos cs) :
    ∃ before c after, cs = before ++ c :: after ∧ q.1 = pos + size before := by
  induction cs generalizing pos with
  | nil => simp [located] at h
  | cons c cs ih =>
    rcases mem_cons.1 h with rfl | h
    · exact ⟨[], c, cs, rfl, by simp⟩
    · obtain ⟨before, d, after, rfl, hq⟩ := ih h
      exact ⟨c :: before, d, after, rfl, by rw [size_cons]; omega⟩

/-- Characters that lie apart from a range do **not start** in it. -/
theorem filter_located_eq_nil {pos a b : Nat} {cs : List Char}
    (h : pos + size cs ≤ a ∨ b ≤ pos) :
    (located pos cs).filter (fun q ↦ a ≤ q.1 && q.1 < b) = [] := by
  refine filter_eq_nil_iff.2 fun q hq ↦ ?_
  have := bounds_of_mem_located hq
  simp only [Bool.and_eq_true, decide_eq_true_eq]
  omega

/-- The characters that **start in a range** of bytes, with the bytes at which they start. -/
def window (cs : List Char) (start stop : Nat) : List (Nat × Char) :=
  (located 0 cs).filter fun q ↦ start ≤ q.1 && q.1 < stop

theorem window_of_le {cs : List Char} {a b : Nat} (h : b ≤ a) : window cs a b = [] := by
  refine filter_eq_nil_iff.2 fun q _ ↦ ?_
  simp only [Bool.and_eq_true, decide_eq_true_eq]
  omega

theorem bounds_of_mem_window {cs : List Char} {a b : Nat} {q : Nat × Char}
    (h : q ∈ window cs a b) : a ≤ q.1 ∧ q.1 < b := by
  simpa using (mem_filter.1 h).2

/-- Between boundaries, a window holds the characters that lie there. -/
theorem window_eq_located {before mid after : List Char} :
    window (before ++ mid ++ after) (size before) (size before + size mid)
      = located (size before) mid := by
  have hbefore : (located 0 before).filter
      (fun q ↦ size before ≤ q.1 && q.1 < size before + size mid) = [] :=
    filter_located_eq_nil (.inl (by omega))
  have hmid : (located (size before) mid).filter
      (fun q ↦ size before ≤ q.1 && q.1 < size before + size mid) = located (size before) mid := by
    refine filter_eq_self.2 fun q hq ↦ ?_
    have := bounds_of_mem_located hq
    simp only [Bool.and_eq_true, decide_eq_true_eq]
    omega
  have hafter : (located (size before + size mid) after).filter
      (fun q ↦ size before ≤ q.1 && q.1 < size before + size mid) = [] :=
    filter_located_eq_nil (.inr (Nat.le_refl _))
  rw [window, located_append, located_append, filter_append, filter_append]
  simp only [Nat.zero_add, size_append]
  rw [hbefore, hmid, hafter, nil_append, append_nil]

theorem filter_located_append (pos : Nat) (cs : List Char) {a b c : Nat} (hab : a ≤ b)
    (hbc : b ≤ c) :
    (located pos cs).filter (fun q ↦ a ≤ q.1 && q.1 < c)
      = (located pos cs).filter (fun q ↦ a ≤ q.1 && q.1 < b)
        ++ (located pos cs).filter (fun q ↦ b ≤ q.1 && q.1 < c) := by
  induction cs generalizing pos with
  | nil => rfl
  | cons x xs ih =>
    by_cases hpos : pos < b
    · have hb : ¬ b ≤ pos := by omega
      have hc : pos < c := by omega
      by_cases ha : a ≤ pos <;> simp [located, ha, hc, hpos, ih]
    · -- From here on nothing starts before `b`.
      have hnone : (located pos (x :: xs)).filter (fun q ↦ a ≤ q.1 && q.1 < b) = [] :=
        filter_located_eq_nil (.inr (by omega))
      rw [hnone, nil_append]
      refine filter_congr fun q hq ↦ ?_
      have := bounds_of_mem_located hq
      have ha : a ≤ q.1 := by omega
      have hb : b ≤ q.1 := by omega
      simp [ha, hb]

/-- **Windows side by side** make one window. -/
theorem window_append (cs : List Char) {a b c : Nat} (hab : a ≤ b) (hbc : b ≤ c) :
    window cs a c = window cs a b ++ window cs b c :=
  filter_located_append 0 cs hab hbc

/-- A window that is not empty starts with the character at its boundary; the others follow it. -/
theorem window_eq_cons {cs : List Char} {a b : Nat} (ha : IsBoundary cs a) (hab : a < b)
    (hlt : a < size cs) :
    ∃ c rest, window cs a b = (a, c) :: rest ∧ ∀ q ∈ rest, a < q.1 ∧ q.1 < b := by
  obtain ⟨before, after, rfl, rfl⟩ := ha
  cases after with
  | nil => simp at hlt
  | cons c after =>
    have hwindow : window (before ++ c :: after) (size before) b
        = (located (size before) (c :: after)).filter (fun q ↦ size before ≤ q.1 && q.1 < b) := by
      have hbefore : (located 0 before).filter (fun q ↦ size before ≤ q.1 && q.1 < b) = [] :=
        filter_located_eq_nil (.inl (by omega))
      rw [window, located_append, filter_append, hbefore, nil_append, Nat.zero_add]
    have hc := c.utf8Size_pos
    refine ⟨c, (located (size before + c.utf8Size) after).filter
      (fun q ↦ size before ≤ q.1 && q.1 < b), ?_, fun q hq ↦ ?_⟩
    · rw [hwindow]
      simp [located, hab]
    · have hbounds := bounds_of_mem_located (mem_filter.1 hq).1
      have hrange := (mem_filter.1 hq).2
      simp only [Bool.and_eq_true, decide_eq_true_eq] at hrange
      omega

/-- A boundary is where a character starts, or the end. -/
theorem isBoundary_iff {cs : List Char} {a : Nat} :
    IsBoundary cs a ↔ a = size cs ∨ ∃ q ∈ located 0 cs, q.1 = a := by
  constructor
  · rintro ⟨before, after, rfl, rfl⟩
    cases after with
    | nil => simp
    | cons c after => exact .inr ⟨(size before, c), by simp [located_append, located], rfl⟩
  · rintro (rfl | ⟨q, hq, rfl⟩)
    · exact isBoundary_size cs
    · obtain ⟨before, c, after, rfl, hstart⟩ := exists_of_mem_located hq
      exact ⟨before, c :: after, rfl, by simpa using hstart⟩

instance (cs : List Char) (a : Nat) : Decidable (IsBoundary cs a) :=
  decidable_of_iff _ isBoundary_iff.symm

/-- **Reading between boundaries** gives the characters of the window. -/
theorem decode_slice {cs : List Char} {a b : Nat} (ha : IsBoundary cs a) (hb : IsBoundary cs b)
    (hab : a ≤ b) :
    decode (((encodeChars cs).drop a).take (b - a)) = .ok ((window cs a b).map (·.2)) := by
  obtain ⟨before, mid, after, rfl, rfl, rfl⟩ := ha.split hb hab
  have hbytes : ((encodeChars (before ++ mid ++ after)).drop (size before)).take
      (size before + size mid - size before) = encodeChars mid := by
    rw [encodeChars_append, encodeChars_append, append_assoc, Nat.add_sub_cancel_left,
      ← length_encodeChars before, drop_left, ← length_encodeChars mid, take_left]
  rw [hbytes, decode_encodeChars, window_eq_located, map_snd_located]

end ScriptTree.Utf8
