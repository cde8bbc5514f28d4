import ScriptTree.Proofs.Links

/-!
# The targets of a plan

A plan goes through the files of a graph in order. Each file has **one place**: below the output
directory as the file lies below the common root, under its name with the extension of its format.
A file whose place is taken by an earlier one is refused, and with it the plan.

A place needs a name, so a file that *is* the common root has none. No file of a file system is a
directory above others, but a graph by itself does not say so; `Plan.make_exact` therefore speaks
of this case too.

## Main results

* `isBelow_commonRoot`: all files lie below the common root.
* `Plan.foldlM_addTarget`: how far the walk through the files gets.
* `Plan.make_exact`: when there is a plan, which plan, and why there is none.
-/

namespace ScriptTree

open List

/-! ### The common root -/

section CommonRoot

variable {paths : List Path} {start p : Path}

/-- If all paths lie below **one** of the directories, they lie below the one that is found. -/
theorem isBelow_firstAbove {directory : Path} {above : List Path} {d : Path}
    (hd : d ∈ directory :: above) (h : ∀ p ∈ paths, p.isBelow d = true) (hp : p ∈ paths) :
    p.isBelow (firstAbove paths directory above) = true := by
  induction above generalizing directory with
  | nil =>
    obtain rfl := mem_singleton.1 hd
    exact h p hp
  | cons next above ih =>
    rw [firstAbove]
    split
    · next hall => exact all_eq_true.1 hall p hp
    · next hall =>
      -- The directory that fails the test is not the one below which all paths lie.
      refine ih ((mem_cons.1 hd).resolve_left ?_)
      rintro rfl
      exact hall (all_eq_true.2 h)

theorem root_mem_parents (start : Path) : ⟨start.anchor, []⟩ ∈ start :: start.parents := by
  by_cases hparts : start.parts = []
  · have heq : start = ⟨start.anchor, []⟩ := by rw [← hparts]
    exact mem_cons.2 (.inl heq.symm)
  · have hpos := length_pos_of_ne_nil hparts
    refine mem_cons_of_mem _ (mem_map.2 ⟨start.parts.length - 1, ?_, ?_⟩)
    · exact mem_range.2 (by omega)
    · simp

/-- Paths with the anchor of the start lie **below their common root**. -/
theorem isBelow_commonRoot (h : ∀ p ∈ paths, p.anchor = start.anchor) (hp : p ∈ paths) :
    p.isBelow (commonRoot start paths) = true := by
  refine isBelow_firstAbove (root_mem_parents start) (fun p hp ↦ ?_) hp
  simp [Path.isBelow, Path.relativeTo?, h p hp]

end CommonRoot

namespace Path

variable {p root : Path}

theorem isBelow_iff : p.isBelow root = true ↔ p.anchor = root.anchor ∧ root.parts <+: p.parts := by
  rw [isBelow, relativeTo?, Option.isSome_ite, List.isPrefixOf_iff_prefix]

/-- Something lies **strictly below** a path exactly when its directory lies below the path. -/
theorem child_isBelow_iff {name : Text} :
    (p.child name).isBelow root = true ∧ p.child name ≠ root ↔ p.isBelow root = true := by
  rw [isBelow_iff, isBelow_iff]
  constructor
  · rintro ⟨⟨hanchor, hparts⟩, hne⟩
    refine ⟨hanchor, (prefix_concat_iff.1 hparts).resolve_left fun heq ↦ hne ?_⟩
    obtain ⟨b, parts⟩ := root
    obtain rfl : parts = p.parts ++ [name] := heq
    obtain rfl : p.anchor = b := hanchor
    rfl
  · rintro ⟨hanchor, hparts⟩
    refine ⟨⟨hanchor, hparts.trans (prefix_append _ _)⟩, ?_⟩
    rintro rfl
    have hlength := hparts.length_le
    simp [child] at hlength

/-- A path below another one is that path **followed by** the names that are left. -/
theorem eq_append_of_isBelow (h : p.isBelow root = true) :
    p = root.append (p.parts.drop root.parts.length) := by
  rw [isBelow, relativeTo?, Option.isSome_ite] at h
  obtain ⟨hanchor, hprefix⟩ := h
  obtain ⟨a, parts⟩ := p
  obtain rfl : a = root.anchor := hanchor
  have hparts := prefix_iff_eq_append.1 (List.isPrefixOf_iff_prefix.1 hprefix)
  show (⟨root.anchor, parts⟩ : Path) = ⟨root.anchor, _⟩
  rw [hparts]

theorem relativeTo?_append (root : Path) (names : List Text) :
    (root.append names).relativeTo? root = some names := by
  simp [relativeTo?, append]

end Path

/-- A graph whose paths all **start at the same root**, each path that of one file. -/
structure Graph.SharesAnchor (g : Graph) (a : Anchor) : Prop where
  files : ∀ file ∈ g.files, file.path.anchor = a
  entry : ∀ p, g.entry = some p → p.anchor = a
  nodup : (g.files.map (·.path)).Nodup

namespace Plan

variable {out root : Path} {file : SourceFile} {g : Graph}

/-! ### Places -/

/-- The **place** of a file: in the same directory below `out` as the file below `root`, under its
name with the extension of its format. -/
def place (out root : Path) (file : SourceFile) : Path :=
  (out.append (file.path.parts.drop root.parts.length).dropLast).child
    (Path.stem file.path.name ++ file.format.extension)

/-- Where a file below the root is written: at **its place**, if it has a name there. -/
theorem targetOf_eq (h : file.path.isBelow root = true) :
    targetOf out root file
      = if file.path = root then .error (.defect (.emptyName ⟨.relative, []⟩))
        else .ok (place out root file) := by
  have hpath := Path.eq_append_of_isBelow h
  generalize hnames : file.path.parts.drop root.parts.length = names at hpath
  have hrelative : file.path.relativeTo? root = some names := by
    rw [hpath, Path.relativeTo?_append]
  rw [targetOf, hrelative, place, hnames]
  rcases eq_nil_or_concat names with rfl | ⟨below, name, rfl⟩
  · have hroot : file.path = root := by rw [hpath, Path.append, append_nil]
    rw [if_pos hroot]
    rfl
  · have hroot : file.path ≠ root := by
      intro heq
      have hlength := congrArg (fun p : Path ↦ p.parts.length) (heq.symm.trans hpath)
      simp [Path.append] at hlength
    have hname : file.path.name = name := by
      rw [hpath]
      simp [Path.name, Path.append]
    rw [if_neg hroot]
    simp [suffixed_append, bind, Except.bind, pure, Except.pure, Path.append, Path.child, hname]

theorem parent_place (out root : Path) (file : SourceFile) :
    (place out root file).parent
      = out.append (file.path.parts.drop root.parts.length).dropLast := by
  simp [place, Path.parent, Path.child]

/-- A place lies **strictly below** the output directory. -/
theorem isBelow_place (out root : Path) (file : SourceFile) :
    (place out root file).isBelow out = true ∧ place out root file ≠ out := by
  have hplace : place out root file
      = out.append ((file.path.parts.drop root.parts.length).dropLast ++
          [Path.stem file.path.name ++ file.format.extension]) := by
    simp [place, Path.append, Path.child]
  constructor
  · rw [hplace, Path.isBelow, Path.relativeTo?_append]
    rfl
  · intro heq
    have hlength := congrArg (fun p : Path ↦ p.parts.length) (hplace.symm.trans heq)
    simp [Path.append] at hlength

theorem endsWith_place (out root : Path) (file : SourceFile) :
    (place out root file).name.endsWith file.format.extension = true := by
  have hname : (place out root file).name = Path.stem file.path.name ++ file.format.extension := by
    simp [place, Path.name, Path.child]
  rw [hname, Text.endsWith, isSuffixOf_iff_suffix]
  exact suffix_append _ _

/-- A file lies below the root **as its place lies** below the output directory. -/
theorem directory_eq (h : file.path.isBelow root = true) (hroot : file.path ≠ root) :
    file.directory = root.append (file.path.parts.drop root.parts.length).dropLast := by
  have hpath := Path.eq_append_of_isBelow h
  generalize file.path.parts.drop root.parts.length = names at hpath ⊢
  have hnames : names ≠ [] := by
    rintro rfl
    exact hroot (by rw [hpath, Path.append, append_nil])
  rw [SourceFile.directory, hpath]
  simp [Path.parent, Path.append, dropLast_append_of_ne_nil hnames]

/-! ### One file after others -/

/-- What a plan holds of a file at its place. -/
def placed (out root : Path) (file : SourceFile) : Path × Path := (file.path, place out root file)

/-- Why a file is **refused** after others: it has no name below the root, or its place is that of
an earlier file. -/
inductive Refuses (out root : Path) (before : List SourceFile) (file : SourceFile) : Failure → Prop
  | nameless (h : file.path = root) :
      Refuses out root before file (.defect (.emptyName ⟨.relative, []⟩))
  | shared {owner : SourceFile} (h : file.path ≠ root) (howner : owner ∈ before)
      (hplace : place out root owner = place out root file) :
      Refuses out root before file (.write (place out root file) (.shared owner.path file.path))

/-- Files that can be planned **together**: each has a name below the root, and no two have the same
place. -/
def Compatible (out root : Path) (files : List SourceFile) : Prop :=
  (∀ file ∈ files, file.path ≠ root) ∧ (files.map (place out root)).Nodup

variable {done before todo : List SourceFile}

theorem Refuses.not_compatible {e : Failure} {after : List SourceFile}
    (h : Refuses out root before file e) : ¬ Compatible out root (before ++ file :: after) := by
  rintro ⟨hnamed, hnodup⟩
  cases h with
  | nameless hroot => exact hnamed file (by simp) hroot
  | shared _ howner hplace =>
    rw [map_append] at hnodup
    exact (nodup_append.1 hnodup).2.2 _ (mem_map_of_mem howner) _ mem_cons_self
      hplace

/-- Adding a file that has a place: it is refused if its place is **taken**. -/
theorem addTarget_eq (h : file.path.isBelow root = true) (hroot : file.path ≠ root)
    (done : List SourceFile) :
    addTarget out root (done.map (placed out root)) file
      = match done.find? (fun other ↦ place out root other = place out root file) with
        | some owner => .error (.write (place out root file) (.shared owner.path file.path))
        | none => .ok ((done ++ [file]).map (placed out root)) := by
  have hfind : (done.map (placed out root)).find? (fun t ↦ t.2 = place out root file)
      = (done.find? fun other ↦ place out root other = place out root file).map
          (placed out root) := find?_map
  rw [addTarget, targetOf_eq h, if_neg hroot]
  simp only [bind, Except.bind, hfind]
  cases done.find? fun other ↦ place out root other = place out root file with
  | some owner => rfl
  | none => simp [placed, pure, Except.pure]

/-- A file after others is **added or refused**. -/
theorem addTarget_cases (hdone : Compatible out root done) (h : file.path.isBelow root = true) :
    Compatible out root (done ++ [file]) ∧
        addTarget out root (done.map (placed out root)) file
          = .ok ((done ++ [file]).map (placed out root)) ∨
      ∃ e, Refuses out root done file e ∧
        addTarget out root (done.map (placed out root)) file = .error e := by
  by_cases hroot : file.path = root
  · refine .inr ⟨_, .nameless hroot, ?_⟩
    rw [addTarget, targetOf_eq h, if_pos hroot]
    rfl
  rw [addTarget_eq h hroot]
  cases hfind : done.find? fun other ↦ place out root other = place out root file with
  | some owner =>
    have hplace : place out root owner = place out root file := by
      simpa using find?_some hfind
    exact .inr ⟨_, .shared hroot (mem_of_find?_eq_some hfind) hplace, rfl⟩
  | none =>
    have hnew : place out root file ∉ done.map (place out root) := by
      intro hmem
      obtain ⟨owner, howner, hplace⟩ := mem_map.1 hmem
      exact find?_eq_none.1 hfind owner howner (by simpa using hplace)
    refine .inl ⟨⟨fun other hother ↦ ?_, ?_⟩, rfl⟩
    · rcases mem_append.1 hother with hother | hother
      · exact hdone.1 other hother
      · exact mem_singleton.1 hother ▸ hroot
    · rw [map_append, map_singleton, ← concat_eq_append]
      exact (nodup_concat _ _).2 ⟨hnew, hdone.2⟩

/-! ### All files -/

/-- **How far the walk gets**: all files are planned at their places, or there is a first one that
is refused. -/
theorem foldlM_addTarget (hdone : Compatible out root done)
    (h : ∀ file ∈ todo, file.path.isBelow root = true) :
    Compatible out root (done ++ todo) ∧
        todo.foldlM (addTarget out root) (done.map (placed out root))
          = .ok ((done ++ todo).map (placed out root)) ∨
      ∃ before file after e, todo = before ++ file :: after ∧
        Compatible out root (done ++ before) ∧ Refuses out root (done ++ before) file e ∧
        todo.foldlM (addTarget out root) (done.map (placed out root)) = .error e := by
  induction todo generalizing done with
  | nil =>
    rw [append_nil]
    exact .inl ⟨hdone, rfl⟩
  | cons file todo ih =>
    rw [foldlM_cons]
    rcases addTarget_cases hdone (h file mem_cons_self) with ⟨hadd, heq⟩ | ⟨e, hrefuses, heq⟩
    · rw [heq]
      show _ ∧ todo.foldlM _ _ = _ ∨ ∃ before file' after e, _ ∧ _ ∧ _ ∧ todo.foldlM _ _ = _
      rcases ih hadd fun other hother ↦ h other (mem_cons_of_mem _ hother) with
        ⟨hall, hfold⟩ | ⟨before, other, after, e, rfl, hbefore, hrefuses, hfold⟩
      · rw [append_assoc] at hall hfold
        exact .inl ⟨hall, hfold⟩
      · rw [append_assoc] at hbefore hrefuses
        exact .inr ⟨file :: before, other, after, e, rfl, hbefore, hrefuses, hfold⟩
    · rw [heq]
      exact .inr ⟨[], file, todo, e, rfl, by rwa [append_nil], by rwa [append_nil], rfl⟩

end Plan

namespace Graph.SharesAnchor

variable {g : Graph} {a : Anchor}

theorem anchor_startOf (h : g.SharesAnchor a) (out : Path) {file : SourceFile}
    (hfile : file ∈ g.files) : (Plan.startOf out g).anchor = a := by
  cases hentry : g.entry with
  | some entry =>
    have hstart : Plan.startOf out g = entry.parent := by rw [Plan.startOf, hentry]
    rw [hstart]
    exact h.entry entry hentry
  | none =>
    cases hfiles : g.files with
    | nil => simp [hfiles] at hfile
    | cons first rest =>
      have hstart : Plan.startOf out g = first.path.parent := by
        rw [Plan.startOf, hentry, hfiles]
      rw [hstart]
      exact h.files first (hfiles ▸ mem_cons_self)

/-- The files of a graph lie below the **root** that its plan takes. -/
theorem isBelow (h : g.SharesAnchor a) (out : Path) {file : SourceFile} (hfile : file ∈ g.files) :
    file.path.isBelow (commonRoot (Plan.startOf out g) (g.files.map (·.path))) = true := by
  refine isBelow_commonRoot (fun p hp ↦ ?_) (mem_map_of_mem hfile)
  obtain ⟨other, hother, rfl⟩ := mem_map.1 hp
  rw [h.files other hother, h.anchor_startOf out hfile]

end Graph.SharesAnchor

namespace Plan

variable {g : Graph} {a : Anchor} {out root : Path} {files : List SourceFile}

/-- Different files can be planned together exactly when their places are **different**. -/
theorem compatible_iff (hnodup : (files.map (·.path)).Nodup) :
    Compatible out root files ↔
      (∀ file ∈ files, file.path ≠ root) ∧ Set.InjOn (place out root) {file | file ∈ files} := by
  have hfiles : files.Nodup := hnodup.of_map
  exact and_congr_right' (nodup_map_iff_inj_on hfiles)

/-- **Plans are exact.** Let the paths of a graph start at one root. There is a plan exactly when
every file has a name below the common root and no two files have the same place. Then the plan
holds every file with its place, in the order of the files; the place lies strictly below the output
directory, in the same directory there as the file below the root, and its name ends with the
extension of the file's format. If there is no plan, the first file that has no place of its own is
refused: it has no name below the root, or an earlier file has its place, and then the failure names
the place and both files. -/
theorem make_exact (h : g.SharesAnchor a) (cwd output : Path) :
    let out := Path.absolute cwd output
    let root := commonRoot (startOf out g) (g.files.map (·.path))
    ((∃ plan, make cwd g output = .ok plan) ↔
      (∀ file ∈ g.files, file.path ≠ root) ∧
        Set.InjOn (place out root) {file | file ∈ g.files}) ∧
    (∀ plan, make cwd g output = .ok plan →
      plan = ⟨out, root, g.files.map fun file ↦ (file.path, place out root file)⟩ ∧
      ∀ file ∈ g.files,
        plan.targetFor file.path = .ok (place out root file) ∧
        (place out root file).isBelow out = true ∧ place out root file ≠ out ∧
        (place out root file).name.endsWith file.format.extension = true ∧
        ∃ names, (place out root file).parent = out.append names ∧
          file.directory = root.append names) ∧
    ∀ e, make cwd g output = .error e →
      ∃ before file after, g.files = before ++ file :: after ∧
        (∀ other ∈ before, other.path ≠ root) ∧
        Set.InjOn (place out root) {other | other ∈ before} ∧ Refuses out root before file e := by
  intro out root
  have hmake : make cwd g output
      = (g.files.foldlM (addTarget out root) []).map fun targets ↦ ⟨out, root, targets⟩ := rfl
  have hbelow : ∀ file ∈ g.files, file.path.isBelow root = true := fun file ↦ h.isBelow out
  have hempty : Compatible out root [] := ⟨by simp, List.nodup_nil⟩
  rw [hmake, ← compatible_iff h.nodup]
  rcases foldlM_addTarget hempty hbelow with ⟨hall, hfold⟩ | ⟨before, file, after, e, hsplit,
    hbefore, hrefuses, hfold⟩
  · -- Every file is planned at its place.
    rw [List.map_nil, List.nil_append] at hfold
    rw [hfold]
    refine ⟨iff_of_true ⟨_, rfl⟩ hall, ?_, by simp [Except.map]⟩
    rintro _ ⟨⟩
    refine ⟨rfl, fun file hfile ↦ ⟨?_, (isBelow_place ..).1, (isBelow_place ..).2,
      endsWith_place .., _, parent_place .., directory_eq (hbelow file hfile) (hall.1 file hfile)⟩⟩
    have hkeys : ((g.files.map (placed out root)).map (·.1)).Nodup := by
      rw [List.map_map]
      exact h.nodup
    rw [targetFor, lookup_of_mem hkeys (List.mem_map_of_mem hfile)]
  · -- The walk ends at the first file that is refused, so the files do not go together.
    rw [List.map_nil] at hfold
    rw [List.nil_append] at hbefore hrefuses
    rw [hfold]
    refine ⟨iff_of_false (by simp [Except.map]) fun hall ↦ ?_, by simp [Except.map], ?_⟩
    · exact hrefuses.not_compatible (hsplit ▸ hall)
    · rintro _ ⟨⟩
      have hpaths : (before.map (·.path)).Nodup := by
        have := h.nodup
        rw [hsplit, List.map_append] at this
        exact this.of_append_left
      obtain ⟨hnamed, hinj⟩ := (compatible_iff hpaths).1 hbefore
      exact ⟨before, file, after, hsplit, hnamed, hinj, hrefuses⟩

/-- A script of a directory, in a format. -/
def scriptAt (name : String) (format : Format) : SourceFile where
  path := ⟨.root, ["p", name]⟩
  rawPath := ⟨.root, ["p", name]⟩
  hint := []
  mechanism := .imported
  format := format
  edges := []

/-- Three scripts, two of which have the same stem, the last one in some format. -/
def siblings (format : Format) : Graph where
  entry := some ⟨.root, ["p", "main.js"]⟩
  files := [scriptAt "main.js" .static, scriptAt "a.ts" .static, scriptAt "a.js" format]

/-- Scripts with the same stem go together in **different formats** only. -/
theorem make_siblings :
    (siblings .dynamic).SharesAnchor .root ∧ (siblings .static).SharesAnchor .root ∧
    (∃ plan, make ⟨.root, ["p"]⟩ (siblings .dynamic) (Path.ofText "out") = .ok plan) ∧
    ∃ before file after e, (siblings .static).files = before ++ file :: after ∧
      make ⟨.root, ["p"]⟩ (siblings .static) (Path.ofText "out") = .error e ∧
      Refuses ⟨.root, ["p", "out"]⟩ ⟨.root, ["p"]⟩ before file e := by
  have hshares (format : Format) : (siblings format).SharesAnchor .root := by
    refine ⟨by simp [siblings, scriptAt], by simp [siblings], ?_⟩
    cases format <;> decide
  have hdynamic := make_exact (hshares .dynamic) ⟨.root, ["p"]⟩ (Path.ofText "out")
  have hstatic := make_exact (hshares .static) ⟨.root, ["p"]⟩ (Path.ofText "out")
  refine ⟨hshares _, hshares _, ?_, ?_⟩
  · exact hdynamic.1.2 ((compatible_iff (hshares _).nodup).1 ⟨by decide, by decide⟩)
  · cases hmake : make ⟨.root, ["p"]⟩ (siblings .static) (Path.ofText "out") with
    | ok plan =>
      have := (compatible_iff (hshares _).nodup).2 (hstatic.1.1 ⟨plan, hmake⟩)
      exact absurd this.2 (by decide)
    | error e =>
      obtain ⟨before, file, after, hsplit, -, -, hrefuses⟩ := hstatic.2.2 e hmake
      exact ⟨before, file, after, e, hsplit, rfl, hrefuses⟩

end Plan

end ScriptTree
