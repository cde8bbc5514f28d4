import ScriptTree.Proofs.Emission

/-!
# Cleared output directories

Before anything is written the output directory is **cleared**: a directory is removed with all that
is below it, and anything else that stands there is removed by itself, a symbolic link without what
it leads to. What is left is a file system in which the path of the output directory leads nowhere,
unless nothing is left at all.

Somewhere on the way to the output directory the names then stop leading anywhere. If something that
is no directory stood at that point, no directory could be made below it; so once anything has been
written below the output directory there is a vacancy for it (`exists_vacancy`).

## Main results

* `resetOutput_cases`: what clearing can do.
* `cleared_of_resetOutput`: clearing succeeds only in leaving this.
* `exists_vacancy`: where the output will stand.
-/

namespace ScriptTree

open List ScriptTree.Action

namespace FileSystem

variable {fs fs' : FileSystem} {l : Location} {p : Path}

/-! ### Removing -/

section Filter

variable (keep : Location → Bool)

theorem entry?_of_filter (hentries : fs'.entries = fs.entries.filter fun p ↦ keep p.1)
    (hl : l ≠ []) : fs'.entry? l = if keep l then fs.entry? l else none := by
  rw [entry?_of_ne_nil hl, entry?_of_ne_nil hl, hentries, lookup_filter]

/-- When entries are removed, **nothing new** is there. -/
theorem keeps_of_filter (hentries : fs'.entries = fs.entries.filter fun p ↦ keep p.1) :
    fs'.Keeps fs := by
  intro l e he
  by_cases hl : l = []
  · rwa [hl] at he ⊢
  · rw [entry?_of_filter keep hentries hl, Option.ite_none_right_eq_some] at he
    exact he.2

/-- A tree from which entries are removed, with all that stands **in them**, is a tree. -/
theorem IsTree.of_filter (h : fs.IsTree) (hcwd : fs'.cwd = fs.cwd)
    (hentries : fs'.entries = fs.entries.filter fun p ↦ keep p.1)
    (hkeep : ∀ l name, fs.entry? l = some .directory → keep (l ++ [name]) = true → keep l = true) :
    fs'.IsTree := by
  refine ⟨⟨fun e he ↦ ?_, ?_⟩, ?_, fun l name e he ↦ ?_⟩
  · rw [hentries] at he
    exact h.entries e (mem_of_mem_filter he)
  · rw [hcwd]
    exact h.cwd
  · rw [hentries]
    exact h.nodup.sublist (filter_sublist.map _)
  · rw [entry?_of_filter keep hentries (by simp), Option.ite_none_right_eq_some] at he
    have hdir := h.nested l name e he.2
    by_cases hl : l = []
    · rw [hl, entry?_nil]
    · rw [entry?_of_filter keep hentries hl, if_pos (hkeep l name hdir he.1), hdir]

theorem IsTree.eraseTree (h : fs.IsTree) (l : Location) : (fs.eraseTree l).IsTree := by
  refine h.of_filter (fun k ↦ !l.isPrefixOf k) rfl rfl fun k name _ hkeep ↦ ?_
  simp only [Bool.not_eq_true', ← Bool.not_eq_true, List.isPrefixOf_iff_prefix] at hkeep ⊢
  exact fun hbelow ↦ hkeep (hbelow.trans (prefix_append k [name]))

theorem IsTree.erase (h : fs.IsTree) (hl : fs.entry? l ≠ some .directory) :
    (fs.erase l).IsTree := by
  refine h.of_filter (· ≠ l) rfl rfl fun k name hdir _ ↦ ?_
  rw [decide_eq_true_iff]
  rintro rfl
  exact hl hdir

end Filter

theorem removeTree_eq_ok (h : fs.removeTree p = .ok fs') :
    ∃ l, fs.locate false p = .ok l ∧ fs' = fs.eraseTree l := by
  rw [removeTree] at h
  cases hlocate : fs.locate false p with
  | error cause => simp [hlocate, failAt, bind, Except.bind] at h
  | ok l =>
    cases he : fs.entry? l with
    | none => simp [hlocate, he, failAt, bind, Except.bind] at h
    | some e =>
      cases e <;> simp [hlocate, he, failAt, bind, Except.bind] at h
      exact ⟨l, rfl, h.symm⟩

theorem unlink_eq_ok (h : fs.unlink p = .ok fs') :
    ∃ l, fs.locate false p = .ok l ∧ fs.entry? l ≠ some .directory ∧ fs' = fs.erase l := by
  rw [unlink] at h
  cases hlocate : fs.locate false p with
  | error cause => simp [hlocate, failAt, bind, Except.bind] at h
  | ok l =>
    refine ⟨l, rfl, ?_⟩
    cases he : fs.entry? l with
    | none => simp [hlocate, he, failAt, bind, Except.bind] at h
    | some e =>
      cases e <;> simp [hlocate, he, failAt, bind, Except.bind] at h
      all_goals exact ⟨by simp, h.symm⟩

/-- Once the entry at a path is removed, the path leads **nowhere**. -/
theorem exists_eq_false_of_removed (hp : p.isAbsolute = true) (hlocate : fs.locate false p = .ok l)
    (hkeeps : fs'.Keeps fs) (hnone : fs'.entry? l = none) : fs'.exists_ p = false := by
  by_contra h
  obtain ⟨l', e, hstat⟩ := exists_iff.1 (eq_true_of_ne_false h)
  obtain ⟨k, hk, hsome⟩ := exists_locate_false hp hstat
  rw [locate_of_keeps hkeeps hp hk] at hlocate
  cases hlocate
  rw [hnone] at hsome
  cases hsome

end FileSystem

open FileSystem

variable {fs cleared : FileSystem} {out entry : Path}

/-- What **clearing** an output directory leaves: a tree in which its path leads nowhere, or nothing
at all if everything was below it. -/
structure Cleared (fs : FileSystem) (out : Path) (cleared : FileSystem) : Prop where
  isTree : cleared.IsTree
  cwd : cleared.cwd = fs.cwd
  keeps : cleared.Keeps fs
  gone : cleared.entries = [] ∨ cleared.exists_ out = false

/-- What **resetting** an output directory can do: nothing stands there, or what stands there is
removed, a directory with all that is below it. -/
theorem resetOutput_cases (h : (resetOutput out entry).Returns fs () cleared) :
    entry.isBelow out = false ∧
      (fs.exists_ out = false ∧ cleared = fs ∨
        fs.exists_ out = true ∧ ∃ l, fs.locate false out = .ok l ∧
          (cleared = fs.eraseTree l ∨ fs.entry? l ≠ some .directory ∧ cleared = fs.erase l)) := by
  rw [resetOutput, returns_bind] at h
  obtain ⟨⟨⟩, fs₁, hcheck, h⟩ := h
  obtain ⟨hcheck, rfl⟩ := returns_find.1 hcheck
  obtain ⟨fs₁, fs₂, hget, h⟩ := returns_bind.1 h
  obtain ⟨rfl, rfl⟩ := returns_get.1 hget
  have hbelow : entry.isBelow out = false := by
    by_contra hbelow
    rw [checkOutput, if_pos (eq_true_of_ne_false hbelow)] at hcheck
    cases hcheck
  refine ⟨hbelow, ?_⟩
  by_cases hexists : fs.exists_ out = true
  · rw [if_pos hexists] at h
    refine .inr ⟨hexists, ?_⟩
    split at h
    · obtain ⟨l, hlocate, rfl⟩ := removeTree_eq_ok (returns_change.1 h)
      exact ⟨l, hlocate, .inl rfl⟩
    · obtain ⟨l, hlocate, hdir, rfl⟩ := unlink_eq_ok (returns_change.1 h)
      exact ⟨l, hlocate, .inr ⟨hdir, rfl⟩⟩
  · rw [if_neg hexists] at h
    obtain ⟨-, rfl⟩ := returns_pure.1 h
    exact .inl ⟨eq_false_of_ne_true hexists, rfl⟩

/-- The output directory is **cleared**. -/
theorem cleared_of_resetOutput (hfs : fs.IsTree) (hout : out.isAbsolute = true)
    (h : (resetOutput out entry).Returns fs () cleared) : Cleared fs out cleared := by
  obtain ⟨-, ⟨hexists, rfl⟩ | ⟨-, l, hlocate, rfl | ⟨hdir, rfl⟩⟩⟩ := resetOutput_cases h
  · exact ⟨hfs, rfl, .refl _, .inr hexists⟩
  · have hkeeps : (fs.eraseTree l).Keeps fs := keeps_of_filter (fun k ↦ !l.isPrefixOf k) rfl
    refine ⟨hfs.eraseTree l, rfl, hkeeps, ?_⟩
    by_cases hl : l = []
    · exact .inl (by simp [hl, eraseTree])
    · refine .inr (exists_eq_false_of_removed hout hlocate hkeeps ?_)
      rw [entry?_eraseTree hl, if_pos prefix_rfl]
  · have hkeeps : (fs.erase l).Keeps fs := keeps_of_filter (· ≠ l) rfl
    refine ⟨hfs.erase hdir, rfl, hkeeps, .inr ?_⟩
    have hl : l ≠ [] := fun hl ↦ hdir (by rw [hl, entry?_nil])
    refine exists_eq_false_of_removed hout hlocate hkeeps ?_
    rw [entry?_erase hl, if_pos rfl]

/-! ### Vacancies -/

/-- On the way from a list that has a property to a longer one that has not, some **first** step
leads out of it. -/
theorem exists_first_step {α : Type} {P : List α → Prop} {known names : List α} (hknown : P known)
    (hnames : ¬ P (known ++ names)) :
    ∃ before a after, names = before ++ a :: after ∧ P (known ++ before) ∧
      ¬ P (known ++ before ++ [a]) := by
  induction names generalizing known with
  | nil => exact absurd (by rwa [append_nil]) hnames
  | cons a names ih =>
    by_cases ha : P (known ++ [a])
    · rw [append_cons] at hnames
      obtain ⟨before, b, after, rfl, hbefore, hb⟩ := ih ha hnames
      rw [← append_cons] at hbefore hb
      exact ⟨a :: before, b, after, rfl, hbefore, hb⟩
    · exact ⟨[], a, names, rfl, by rwa [append_nil], by rwa [append_nil]⟩

/-- An entry in a directory is **found** under its name. -/
theorem locate_child {p : Path} {name : Text} {d : Location} (hp : p.isAbsolute = true)
    (hdir : fs.stat p = .ok (d, .directory)) (hname : name ≠ Path.up)
    (hsome : fs.entry? (d ++ [name]) ≠ none) :
    fs.locate false (p.child name) = .ok (d ++ [name]) := by
  obtain ⟨hlocate, hdir⟩ := stat_eq_ok_iff.1 hdir
  rw [locate_of_isAbsolute hp] at hlocate
  obtain ⟨left, hleft⟩ := exists_locateFrom_append hlocate
  obtain ⟨e, he⟩ := Option.ne_none_iff_exists'.1 hsome
  rw [locate_of_isAbsolute (p := p.child name) hp]
  refine (hleft false [name] (by simp)).trans ?_
  rw [locateFrom_eq]
  by_cases hlink : ∃ target, e = .link target
  · obtain ⟨target, rfl⟩ := hlink
    rw [descend_link hdir hname he, if_pos (by simp)]
  · rw [descend_entry hdir hname he fun target heq ↦ hlink ⟨target, heq⟩]
    rfl

/-- If the path of an output directory leads nowhere and yet directories could be made below it,
there is a **vacancy** for it. -/
theorem exists_vacancy (hout : out.IsProper) (hgone : fs.exists_ out = false) {n : Nat}
    {names : List Text} {fs' : FileSystem}
    (hmade : makeParentsFrom n fs (out.append names) = .ok fs') :
    Nonempty (Vacancy fs out) := by
  have hroot : fs.isDirectory ⟨out.anchor, []⟩ = true := isDirectory_top hout.absolute fs
  have hnot : ¬ fs.isDirectory ⟨out.anchor, out.parts⟩ = true := by
    intro hdir
    obtain ⟨l, hstat⟩ := isDirectory_iff.1 hdir
    exact Bool.false_ne_true (hgone.symm.trans (exists_iff.2 ⟨l, _, hstat⟩))
  obtain ⟨above, first, rest, hparts, habove, hfirst⟩ :=
    exists_first_step (P := fun names ↦ fs.isDirectory ⟨out.anchor, names⟩ = true) hroot hnot
  have hparts : out.parts = above ++ first :: rest := hparts
  obtain ⟨base, hbase⟩ := isDirectory_iff.1 habove
  have hproper : Path.up ∉ first :: rest := fun hup ↦
    (hout.names Path.up (by rw [hparts]; exact mem_append_right above hup)).2 rfl
  refine ⟨above, first, rest, base, hparts, hout.absolute, hproper, hbase, ?_⟩
  -- Otherwise something that is no directory would stand in the way.
  by_contra hsome
  have hlocate := locate_child (p := ⟨out.anchor, above⟩) hout.absolute hbase
    (fun hup ↦ hproper (by simp [hup])) hsome
  obtain ⟨e, hfail⟩ := makeParents_of_blocked (p := ⟨out.anchor, above ++ [first]⟩) hout.absolute
    hlocate (eq_false_of_ne_true hfirst) n (rest ++ names)
  have hpath : (⟨out.anchor, above ++ [first]⟩ : Path).append (rest ++ names)
      = out.append names := by
    simp [Path.append, hparts]
  rw [hpath, hmade] at hfail
  cases hfail

end ScriptTree
