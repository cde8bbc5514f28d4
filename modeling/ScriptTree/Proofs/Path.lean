import Mathlib.Data.List.Basic
import ScriptTree.Module.Format
import ScriptTree.Module.Specifier

/-!
# Proper paths

A **proper** path is absolute and goes down by names only. Every normal absolute path is proper, a
proper path is its own normal form, and following the way from one proper path to another leads
there. Steps are written and read back as they are, so the same holds of the texts of paths.

## Main results

* `Path.ofText_text`: reading what was written.
* `Path.normal_append_relativeParts`: the way from one path to another leads there.
* `Path.isProper_absolute`, `Path.isProper_dependencyPath`: where references lead is proper.
-/

namespace ScriptTree

open List

/-! ### Splitting and joining -/

namespace Text

variable {sep : CodePoint} {t : Text}

theorem splitOn_of_notMem (h : sep ∉ t) : splitOn sep t = [t] := by
  induction t with
  | nil => rfl
  | cons c t ih =>
    rw [mem_cons, not_or] at h
    rw [splitOn, if_neg (Ne.symm h.1), ih h.2]

theorem splitOn_append (h : sep ∉ t) (rest : Text) :
    splitOn sep (t ++ sep :: rest) = t :: splitOn sep rest := by
  induction t with
  | nil => simp [splitOn]
  | cons c t ih =>
    rw [mem_cons, not_or] at h
    rw [cons_append, splitOn, if_neg (Ne.symm h.1), ih h.2]

/-- The pieces of a text hold no separator. -/
theorem notMem_of_mem_splitOn {piece : Text} (h : piece ∈ splitOn sep t) : sep ∉ piece := by
  induction t generalizing piece with
  | nil => simp_all [splitOn]
  | cons c t ih =>
    unfold splitOn at h
    split at h
    · rcases mem_cons.1 h with rfl | h
      · simp
      · exact ih h
    · next hc =>
      cases hs : splitOn sep t with
      | nil => exact absurd hs (splitOn_ne_nil sep t)
      | cons first rest =>
        rw [hs] at h ih
        rcases mem_cons.1 h with rfl | h
        · rw [mem_cons, not_or]
          exact ⟨Ne.symm hc, ih mem_cons_self⟩
        · exact ih (mem_cons_of_mem _ h)

@[simp] theorem join_nil (sep : Text) : join sep [] = [] := rfl

@[simp] theorem join_singleton (sep t : Text) : join sep [t] = t := by simp [join]

theorem join_cons_cons (sep t u : Text) (ts : List Text) :
    join sep (t :: u :: ts) = t ++ (sep ++ join sep (u :: ts)) := by simp [join]

/-- Texts put side by side **end** with the last one. -/
theorem isSuffix_join (sep : Text) (ts : List Text) (t : Text) : t <:+ join sep (ts ++ [t]) := by
  induction ts with
  | nil => simp
  | cons u ts ih =>
    cases ts with
    | nil => exact ⟨u ++ sep, by simp [join_cons_cons]⟩
    | cons v ts =>
      exact (ih.trans (suffix_append _ _)).trans (suffix_append _ _)

/-- Splitting undoes joining. -/
theorem splitOn_join {ts : List Text} (hne : ts ≠ []) (h : ∀ t ∈ ts, sep ∉ t) :
    splitOn sep (join [sep] ts) = ts := by
  induction ts with
  | nil => exact absurd rfl hne
  | cons t ts ih =>
    have ht := h t mem_cons_self
    cases ts with
    | nil => rw [join_singleton, splitOn_of_notMem ht]
    | cons u ts =>
      rw [join_cons_cons, cons_append, nil_append, splitOn_append ht,
        ih (cons_ne_nil _ _) fun v hv ↦ h v (mem_cons_of_mem _ hv)]

end Text

/-- The extension of a format is a dot and letters. -/
theorem Format.exists_extension (f : Format) :
    ∃ rest : Text, f.extension = .scalar '.' :: rest ∧ rest ≠ [] ∧ CodePoint.scalar '.' ∉ rest ∧
      CodePoint.scalar '/' ∉ rest := by
  cases f <;> exact ⟨_, rfl, by decide, by decide, by decide⟩

namespace Path

/-! ### Steps and names -/

/-- A **step** of a path: a name or `..`. -/
def IsStep (name : Text) : Prop := isName name = true ∧ CodePoint.scalar '/' ∉ name

/-- A **proper name**: what a file or a directory can be called. -/
def IsProperName (name : Text) : Prop := IsStep name ∧ name ≠ up

instance (name : Text) : Decidable (IsStep name) := inferInstanceAs (Decidable (_ ∧ _))

instance (name : Text) : Decidable (IsProperName name) := inferInstanceAs (Decidable (_ ∧ _))

/-- A **proper path** is absolute and made of proper names. -/
structure IsProper (p : Path) : Prop where
  absolute : p.isAbsolute = true
  names : ∀ name ∈ p.parts, IsProperName name

theorem isStep_up : IsStep up := by decide

theorem IsStep.ne_nil {name : Text} (h : IsStep name) : name ≠ [] := by
  rintro rfl
  exact absurd h.1 (by decide)

/-- The names of a path that was read are steps. -/
theorem isStep_of_mem_ofText {t name : Text} (h : name ∈ (ofText t).parts) : IsStep name := by
  obtain ⟨hmem, hname⟩ := mem_filter.1 h
  exact ⟨hname, Text.notMem_of_mem_splitOn hmem⟩

variable {p q : Path}

theorem IsProper.parent (h : p.IsProper) : p.parent.IsProper :=
  ⟨h.absolute, fun name hname ↦ h.names name (dropLast_subset _ hname)⟩

theorem IsProper.child (h : p.IsProper) {name : Text} (hname : IsProperName name) :
    (p.child name).IsProper := by
  refine ⟨h.absolute, fun other hother ↦ ?_⟩
  rcases mem_append.1 hother with hother | hother
  · exact h.names other hother
  · exact mem_singleton.1 hother ▸ hname

theorem IsProper.append (h : p.IsProper) {names : List Text}
    (hnames : ∀ name ∈ names, IsProperName name) : (p.append names).IsProper := by
  refine ⟨h.absolute, fun name hname ↦ ?_⟩
  rcases mem_append.1 hname with hname | hname
  · exact h.names name hname
  · exact hnames name hname

/-! ### Writing and reading -/

/-- The text of steps does not start with a slash. -/
theorem join_eq_nil_or_cons {parts : List Text} (h : ∀ name ∈ parts, IsStep name) :
    Text.join [.scalar '/'] parts = [] ∧ parts = [] ∨
      ∃ c rest, Text.join [.scalar '/'] parts = c :: rest ∧ c ≠ .scalar '/' := by
  cases parts with
  | nil => simp
  | cons name parts =>
    right
    have hname := h name mem_cons_self
    cases name with
    | nil => exact absurd rfl hname.ne_nil
    | cons c name =>
      have hc : c ≠ .scalar '/' := by
        rintro rfl
        exact hname.2 mem_cons_self
      cases parts with
      | nil => exact ⟨c, name, by rw [Text.join_singleton], hc⟩
      | cons next parts => exact ⟨c, _, by rw [Text.join_cons_cons]; rfl, hc⟩

/-- A text that does not start with a slash has no anchor. -/
theorem anchorOf_cons {c : CodePoint} {t : Text} (h : c ≠ .scalar '/') :
    anchorOf (c :: t) = .relative := by
  unfold anchorOf
  split <;> simp_all

/-- An anchor is read back whatever steps follow. -/
theorem anchorOf_anchorText_append {parts : List Text} (a : Anchor)
    (h : ∀ name ∈ parts, IsStep name) :
    anchorOf (anchorText a ++ Text.join [.scalar '/'] parts) = a := by
  rcases join_eq_nil_or_cons h with ⟨hnil, -⟩ | ⟨c, rest, hcons, hc⟩
  · rw [hnil]
    cases a <;> rfl
  · rw [hcons]
    cases a with
    | relative => exact anchorOf_cons hc
    | root =>
      show anchorOf (.scalar '/' :: c :: rest) = .root
      unfold anchorOf
      split <;> simp_all
    | doubleRoot =>
      show anchorOf (.scalar '/' :: .scalar '/' :: c :: rest) = .doubleRoot
      unfold anchorOf
      split
      · simp_all
      · rfl
      · next hnot heq =>
        simp only [List.cons.injEq] at heq
        exact absurd heq.2.symm (hnot _)
      · next hnot => exact absurd rfl (hnot _)

theorem splitOn_anchorText_append (a : Anchor) (t : Text) :
    (Text.splitOn (.scalar '/') (anchorText a ++ t)).filter isName
      = (Text.splitOn (.scalar '/') t).filter isName := by
  cases a with
  | relative => rfl
  | root => rfl
  | doubleRoot => rfl

theorem filter_splitOn_join {parts : List Text} (h : ∀ name ∈ parts, IsStep name) :
    (Text.splitOn (.scalar '/') (Text.join [.scalar '/'] parts)).filter isName = parts := by
  by_cases hparts : parts = []
  · subst hparts
    rfl
  · rw [Text.splitOn_join hparts fun name hname ↦ (h name hname).2]
    exact filter_eq_self.2 fun name hname ↦ (h name hname).1

/-- **Reading what was written** gives the same path. -/
theorem ofText_text (h : ∀ name ∈ p.parts, IsStep name) : ofText p.text = p := by
  obtain ⟨a, parts⟩ := p
  unfold text
  split
  · next hempty =>
    obtain ⟨rfl, rfl⟩ := hempty
    rfl
  · show ofText (anchorText a ++ Text.join [.scalar '/'] parts) = ⟨a, parts⟩
    rw [ofText, anchorOf_anchorText_append a h, splitOn_anchorText_append, filter_splitOn_join h]

/-! ### Normal paths -/

theorem pushNormal_of_ne_up {anchored : Bool} {seen : List Text} {name : Text} (h : name ≠ up) :
    pushNormal anchored seen name = name :: seen := by
  simp [pushNormal, h]

theorem foldl_pushNormal_of_ne_up {anchored : Bool} {names : List Text} (seen : List Text)
    (h : ∀ name ∈ names, name ≠ up) :
    names.foldl (pushNormal anchored) seen = names.reverse ++ seen := by
  induction names generalizing seen with
  | nil => rfl
  | cons name names ih =>
    rw [foldl_cons, pushNormal_of_ne_up (h name mem_cons_self),
      ih _ fun other hother ↦ h other (mem_cons_of_mem _ hother)]
    simp

/-- Stepping up takes away as many names. -/
theorem foldl_pushNormal_replicate {anchored : Bool} (n : Nat) {seen : List Text}
    (hn : n ≤ seen.length) (h : ∀ name ∈ seen, name ≠ up) :
    (List.replicate n up).foldl (pushNormal anchored) seen = seen.drop n := by
  induction n generalizing seen with
  | zero => rfl
  | succ n ih =>
    cases seen with
    | nil => simp at hn
    | cons top below =>
      have hstep : pushNormal anchored (top :: below) up = below := by
        simp [pushNormal, h top mem_cons_self]
      rw [replicate_succ, foldl_cons, hstep]
      exact ih (by simpa using hn) fun name hname ↦ h name (mem_cons_of_mem _ hname)

/-- A proper path **is normal**. -/
theorem IsProper.normal_eq (h : p.IsProper) : p.normal = p := by
  rw [normal, foldl_pushNormal_of_ne_up [] fun name hname ↦ (h.names name hname).2]
  simp

/-- Below an anchor, names stay proper and steps up are taken. -/
theorem isProperName_of_mem_foldl {names seen : List Text} {name : Text}
    (hnames : ∀ name ∈ names, IsStep name) (hseen : ∀ name ∈ seen, IsProperName name)
    (h : name ∈ names.foldl (pushNormal true) seen) : IsProperName name := by
  induction names generalizing seen with
  | nil => exact hseen name h
  | cons next names ih =>
    refine ih (fun other hother ↦ hnames other (mem_cons_of_mem _ hother)) ?_ h
    intro other hother
    unfold pushNormal at hother
    split at hother
    · next hup =>
      rcases mem_cons.1 hother with rfl | hother
      · exact ⟨hnames other mem_cons_self, hup⟩
      · exact hseen other hother
    · cases seen with
      | nil => simp at hother
      | cons top below =>
        have htop := (hseen top mem_cons_self).2
        simp only [htop] at hother
        exact hseen other (mem_cons_of_mem _ hother)

theorem isProper_normal (habsolute : p.isAbsolute = true) (h : ∀ name ∈ p.parts, IsStep name) :
    p.normal.IsProper := by
  refine ⟨habsolute, fun name hname ↦ ?_⟩
  simp only [normal, habsolute, mem_reverse] at hname
  exact isProperName_of_mem_foldl h (by simp) hname

/-- **Where a text leads** from a proper path is proper. -/
theorem isProper_dependencyPath (h : p.IsProper) (t : Text) : (dependencyPath p t).IsProper := by
  unfold dependencyPath join
  split
  · next habsolute => exact isProper_normal habsolute fun name ↦ isStep_of_mem_ofText
  · refine isProper_normal h.absolute fun name hname ↦ ?_
    rcases mem_append.1 hname with hname | hname
    · exact (h.names name hname).1
    · exact isStep_of_mem_ofText hname

theorem isProper_absolute (h : p.IsProper) (t : Text) : (absolute p (ofText t)).IsProper :=
  isProper_dependencyPath h t

/-! ### The way from one path to another -/

theorem sharedLength_le_left (as bs : List Text) : sharedLength as bs ≤ as.length := by
  induction as generalizing bs with
  | nil => simp [sharedLength]
  | cons a as ih =>
    cases bs with
    | nil => simp [sharedLength]
    | cons b bs =>
      unfold sharedLength
      split
      · simpa using ih bs
      · exact Nat.zero_le _

theorem take_sharedLength (as bs : List Text) :
    as.take (sharedLength as bs) = bs.take (sharedLength as bs) := by
  induction as generalizing bs with
  | nil => simp [sharedLength]
  | cons a as ih =>
    cases bs with
    | nil => simp [sharedLength]
    | cons b bs =>
      unfold sharedLength
      split
      · next hab => simp [hab, ih bs]
      · rfl

/-- What two lists share is all of the second one only if it is the start of the first. -/
theorem length_le_sharedLength_iff {as bs : List Text} :
    bs.length ≤ sharedLength as bs ↔ bs <+: as := by
  induction as generalizing bs with
  | nil => cases bs <;> simp [sharedLength]
  | cons a as ih =>
    cases bs with
    | nil => simp
    | cons b bs =>
      unfold sharedLength
      by_cases hab : a = b
      · subst hab
        simp [ih]
      · simp [hab, Ne.symm hab]

variable {dir : Path}

theorem relativeParts_eq (hq : q.IsProper) (hdir : dir.IsProper) :
    relativeParts q dir
      = List.replicate (dir.parts.length - sharedLength dir.parts q.parts) up
        ++ q.parts.drop (sharedLength dir.parts q.parts) := by
  rw [relativeParts, hq.normal_eq, hdir.normal_eq]

theorem isStep_of_mem_relativeParts (hq : q.IsProper) (hdir : dir.IsProper) {name : Text}
    (h : name ∈ relativeParts q dir) : IsStep name := by
  rw [relativeParts_eq hq hdir] at h
  rcases mem_append.1 h with h | h
  · exact eq_of_mem_replicate h ▸ isStep_up
  · exact (hq.names name (mem_of_mem_drop h)).1

/-- **The way leads there**: from a directory by the way to a path below the same anchor. -/
theorem normal_append_relativeParts (hq : q.IsProper) (hdir : dir.IsProper)
    (hanchor : dir.anchor = q.anchor) :
    (⟨dir.anchor, dir.parts ++ relativeParts q dir⟩ : Path).normal = q := by
  obtain ⟨a, ds⟩ := dir
  obtain ⟨b, qs⟩ := q
  rw [relativeParts_eq hq hdir, normal]
  congr 1
  generalize hn : sharedLength ds qs = n
  have hlength : ds.length - n ≤ ds.reverse.length := by
    rw [length_reverse]
    omega
  have htake : ds.take n = qs.take n := hn ▸ take_sharedLength ds qs
  have hdirs : ∀ name ∈ ds.reverse, name ≠ up := fun name hname ↦
    (hdir.names name (mem_reverse.1 hname)).2
  -- Down to the directory, up to what is shared, and down again.
  simp only [foldl_append]
  rw [foldl_pushNormal_of_ne_up [] (fun name hname ↦ (hdir.names name hname).2), append_nil,
    foldl_pushNormal_replicate _ hlength hdirs,
    foldl_pushNormal_of_ne_up _ fun name hname ↦ (hq.names name (mem_of_mem_drop hname)).2,
    drop_reverse, reverse_append, reverse_reverse, reverse_reverse]
  have hle : n ≤ ds.length := hn ▸ sharedLength_le_left ds qs
  rw [show ds.length - (ds.length - n) = n by omega, htake, take_append_drop]

/-! ### Suffixes -/

/-- A name **without its suffix**. -/
def stem (name : Text) : Text := name.take (name.length - (suffixOf name).length)

theorem lastDot?_append_dot {rest : Text} (base : Text) (hdot : CodePoint.scalar '.' ∉ rest) :
    lastDot? (base ++ .scalar '.' :: rest) = some base.length := by
  have hcontains : (base ++ .scalar '.' :: rest).contains (.scalar '.') = true := by simp
  have htake : (base ++ .scalar '.' :: rest).reverse.takeWhile (· ≠ .scalar '.')
      = rest.reverse := by
    rw [reverse_append, reverse_cons, append_assoc,
      takeWhile_append_of_pos fun c hc ↦ by
        simpa using fun h : c = .scalar '.' ↦ hdot (h ▸ mem_reverse.1 hc)]
    simp
  rw [lastDot?, if_pos hcontains, htake]
  simp only [length_append, length_cons, length_reverse, Option.some.injEq]
  omega

/-- What starts at the last dot is the suffix, if anything stands before it. -/
theorem suffixOf_append_dot {base rest : Text} (hbase : base ≠ []) (hrest : rest ≠ [])
    (hdot : CodePoint.scalar '.' ∉ rest) :
    suffixOf (base ++ .scalar '.' :: rest) = .scalar '.' :: rest := by
  have hlengths : 0 < base.length ∧ base.length + 1 < (base ++ .scalar '.' :: rest).length := by
    have hb := length_pos_of_ne_nil hbase
    have hr := length_pos_of_ne_nil hrest
    simp only [length_append, length_cons]
    omega
  rw [suffixOf, lastDot?_append_dot base hdot]
  simp only [hlengths, and_self, if_true, drop_left]

theorem stem_append_dot {base rest : Text} (hbase : base ≠ []) (hrest : rest ≠ [])
    (hdot : CodePoint.scalar '.' ∉ rest) : stem (base ++ .scalar '.' :: rest) = base := by
  rw [stem, suffixOf_append_dot hbase hrest hdot, length_append, Nat.add_sub_cancel,
    take_left]

/-- Something always stands before a suffix. -/
theorem stem_ne_nil {name : Text} (h : name ≠ []) : stem name ≠ [] := by
  have hpos := length_pos_of_ne_nil h
  have hlt : (suffixOf name).length < name.length := by
    unfold suffixOf
    split
    · split
      · simp only [length_drop]
        omega
      · exact hpos
    · exact hpos
  refine ne_nil_of_length_pos ?_
  rw [stem, length_take]
  omega

/-- Putting another format's extension on a name that has one **exchanges** it. -/
theorem stem_stem_append_extension {name : Text} (h : name ≠ []) (f : Format) :
    stem (stem name ++ f.extension) = stem name := by
  obtain ⟨rest, hext, hrest, hdot, -⟩ := f.exists_extension
  rw [hext]
  exact stem_append_dot (stem_ne_nil h) hrest hdot

/-- A name with the extension of a format is proper. -/
theorem IsProperName.stem_append_extension {name : Text} (h : IsProperName name) (f : Format) :
    IsProperName (stem name ++ f.extension) := by
  have hlength : 4 ≤ (stem name ++ f.extension).length := by
    have : f.extension.length = 4 := by cases f <;> decide
    rw [length_append]
    omega
  have hslash : CodePoint.scalar '/' ∉ stem name ++ f.extension := by
    rw [mem_append, not_or]
    refine ⟨fun hmem ↦ h.1.2 (mem_of_mem_take hmem), ?_⟩
    cases f <;> decide
  have hne : ∀ t : Text, t.length < 4 → stem name ++ f.extension ≠ t := by
    rintro t ht rfl
    omega
  refine ⟨⟨?_, hslash⟩, hne up (by decide)⟩
  simp only [isName, Bool.and_eq_true, bne_iff_ne]
  exact ⟨hne [] (by decide), hne _ (by decide)⟩

/-- A path that ends with a name takes another suffix. -/
theorem withSuffix?_append (a : Anchor) (names : List Text) (name suffix : Text) :
    (⟨a, names ++ [name]⟩ : Path).withSuffix? suffix
      = some ⟨a, names ++ [stem name ++ suffix]⟩ := by
  simp [withSuffix?, parent, child, stem]

end Path

end ScriptTree
