import ScriptTree.Proofs.Relink

/-!
# The first segment of a template

Between its backtick and its first substitution, or its closing backtick, a template has its **first
segment**, and a backslash in it takes the code point after it along. A value is written so that it
is the whole segment, whatever of the two follows. A dollar sign at its end is not joined by what
follows, which starts with a backtick or with a dollar sign of its own, and the braces and dollar
signs of the value are kept apart by the backslash that is put before the two of them.

## Main results

* `firstSegment?_templateText`: the first segment of what is written for a value.
* `templateText_exactly`: templates that are written read back.
-/

namespace ScriptTree

open List
variable {c : CodePoint} {value rest : Text}

/-- The **first segment** of a text, up to the first backtick or start of a substitution that no
backslash takes along, and what follows it. -/
def firstSegment? : Text → Option (Text × Text)
  | [] => none
  | .scalar '\x60' :: rest => some ([], .scalar '\x60' :: rest)
  | .scalar '$' :: .scalar '\x7b' :: rest => some ([], .scalar '$' :: .scalar '\x7b' :: rest)
  | .scalar '\\' :: c :: rest => (firstSegment? rest).map fun (s, t) ↦ (.scalar '\\' :: c :: s, t)
  | c :: rest => (firstSegment? rest).map fun (s, t) ↦ (c :: s, t)

/-- What **follows** a first segment: a backtick or the start of a substitution. -/
def EndsSegment (rest : Text) : Prop :=
  [.scalar '\x60'] <+: rest ∨ [.scalar '$', .scalar '\x7b'] <+: rest

theorem firstSegment?_of_endsSegment (h : EndsSegment rest) :
    firstSegment? rest = some ([], rest) := by
  rcases h with ⟨t, rfl⟩ | ⟨t, rfl⟩ <;> rfl

theorem EndsSegment.head?_ne (h : EndsSegment rest) : rest.head? ≠ some (.scalar '\x7b') := by
  rcases h with ⟨t, rfl⟩ | ⟨t, rfl⟩ <;> simp

theorem firstSegment?_plain (htick : c ≠ .scalar '\x60') (hbackslash : c ≠ .scalar '\\')
    (hdollar : c = .scalar '$' → rest.head? ≠ some (.scalar '\x7b')) :
    firstSegment? (c :: rest) = (firstSegment? rest).map fun (s, t) ↦ (c :: s, t) := by
  rw [firstSegment?]
  · exact htick
  · rintro t rfl rfl
    exact hdollar rfl rfl
  · rintro - - rfl
    exact absurd rfl hbackslash

/-- What is written for a value is the **whole first segment**. -/
theorem firstSegment?_templateText (value : Text) (h : EndsSegment rest) :
    firstSegment? (templateText value ++ rest) = some (templateText value, rest) := by
  fun_induction templateText value with
  | case1 cs ih =>
    have hbrace : firstSegment? (.scalar '\x7b' :: (templateText cs ++ rest))
        = some (.scalar '\x7b' :: templateText cs, rest) := by
      rw [firstSegment?_plain (by decide) (by decide) (by simp), ih]
      rfl
    simp only [cons_append, firstSegment?, hbrace, Option.map_some]
  | case2 cs ih => simp only [cons_append, firstSegment?, ih, Option.map_some]
  | case3 cs ih => simp only [cons_append, firstSegment?, ih, Option.map_some]
  | case4 c cs hdollar hbackslash htick ih =>
    -- A dollar sign is not followed by a brace, neither in the value nor after it.
    have hapart : c = .scalar '$' → (templateText cs ++ rest).head? ≠ some (.scalar '\x7b') := by
      intro hc hhead
      cases htext : templateText cs with
      | nil => exact h.head?_ne (by rwa [htext] at hhead)
      | cons d t =>
        have hvalue : cs.head? = some (.scalar '\x7b') :=
          head?_of_head?_templateText (by simpa [htext] using hhead)
        obtain ⟨ds, rfl⟩ := head?_eq_some_iff.1 hvalue
        exact hdollar ds hc rfl
    rw [cons_append, firstSegment?_plain htick hbackslash hapart, ih]
    rfl
  | case5 => exact firstSegment?_of_endsSegment h

/-- Characters that a template does not go through **end** a segment. -/
theorem endsSegment_of_templateChars? {l : List Char} (h : Lexeme.templateChars? l = some 0) :
    EndsSegment (Text.ofChars l) := by
  unfold Lexeme.templateChars? at h
  cases l with
  | nil => cases h
  | cons c l =>
    simp only [Lexeme.templateFrom?] at h
    split_ifs at h with htick hdollar hbackslash
    · exact .inl ⟨Text.ofChars l, by rw [htick]; rfl⟩
    · obtain ⟨l', rfl⟩ := head?_eq_some_iff.1 hdollar.2
      exact .inr ⟨Text.ofChars l', by rw [hdollar.1]; rfl⟩
    · split at h <;> simp at h
    · simp at h

/-- **Templates that are written read back.** What is written for a value is the first segment of
the template, whether a backtick or a substitution follows, and has the value. So, in the tree of
any script, writing a value for a template specifier never fails, keeps what follows the first
segment, and gives a template whose first segment has the value. -/
theorem templateText_exactly (value : Text) :
    (∀ rest, EndsSegment rest →
      firstSegment? (templateText value ++ rest) = some (templateText value, rest)) ∧
    unescape (templateText value) = .ok value ∧
    ∀ (d : Dialect) (cs : List Char), ∀ n ∈ (SourceTree.read d cs).root.preorder,
      ∀ spec, readSpecifier (SourceTree.read d cs) (some n) = .ok (some spec) →
        spec.form = .template →
          ∃ text segment rest,
            writeSpecifier (SourceTree.read d cs) spec value = .ok (.scalar '\x60' :: text) ∧
            firstSegment? text = some (segment, rest) ∧ unescape segment = .ok value ∧
            (SourceTree.read d cs).rangeText spec.stop spec.node.stop = .ok rest := by
  refine ⟨fun rest ↦ firstSegment?_templateText value, unescape_templateText value,
    fun d cs n hn spec hspec hform ↦ ?_⟩
  have hover := over_read d cs
  obtain ⟨-, hstop, -⟩ := Node.placed_iff.1 (hover.placed.of_mem_preorder hn).2.1
  cases holds_of_readSpecifier hspec with
  | string => cases hform
  | raw => cases hform
  | template hkind _ =>
    obtain ⟨-, -, hle, hboundary, htail, -⟩ := templateSegment_of_ticked (hover.ticked hn hkind)
    have hrest := rangeText_eq hover.source hboundary hstop hle
    refine ⟨_, _, _, ?_, firstSegment?_templateText value (endsSegment_of_templateChars? htail),
      unescape_templateText value, hrest⟩
    simp only [writeSpecifier, hrest]
    rfl

/-- At the template of `nestedScript`, for a value that ends in a dollar sign. -/
theorem templateText_exactly_nestedScript :
    ∃ n ∈ (SourceTree.read .plain nestedScript).root.preorder, ∃ spec text segment rest,
      readSpecifier (SourceTree.read .plain nestedScript) (some n) = .ok (some spec) ∧
      spec.form = .template ∧ writeSpecifier (SourceTree.read .plain nestedScript) spec "./b$"
        = .ok (.scalar '\x60' :: text) ∧
      firstSegment? text = some (segment, rest) ∧ unescape segment = .ok "./b$" := by
  have hfound : (SourceTree.read .plain nestedScript).root.preorder.any (fun n ↦
      succeedsWith (fun spec ↦ spec.any (·.form = .template))
        (readSpecifier (SourceTree.read .plain nestedScript) (some n))) = true := by
    decide +kernel
  obtain ⟨n, hn, hread⟩ := List.any_eq_true.1 hfound
  obtain ⟨spec?, hread, hspec⟩ := exists_of_succeedsWith hread
  obtain ⟨spec, rfl, hform⟩ := (Option.any_eq_true _ _).1 hspec
  have hform := of_decide_eq_true hform
  obtain ⟨text, segment, rest, hwrite, hsegment, hvalue, -⟩ :=
    (templateText_exactly "./b$").2.2 .plain nestedScript n hn spec hread hform
  exact ⟨n, hn, spec, text, segment, rest, hread, hform, hwrite, hsegment, hvalue⟩

end ScriptTree
