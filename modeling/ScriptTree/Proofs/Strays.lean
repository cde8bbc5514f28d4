import ScriptTree.Proofs.Discovery
import ScriptTree.Proofs.FileTree
import ScriptTree.Proofs.Targets

/-!
# Files from the other root

An absolute path starts with one slash or with exactly two, and the two roots are different: no path
that starts at the one lies below a path that starts at the other, though both lead to the same
files. A reference that spells out the other root than the one at which the entry starts finds a
file that **strays**. No directory lies above the entry and above such a file, so there is no common
root, and planning fails with a defect of the input.

Nothing else can make it fail in this way. All files of a graph are files of the file system, and
the common root is a directory, so every file has a name below it.

## Main results

* `Graph.anchors_iff`: a graph has no stray exactly when its edges stay.
* `commonRoot_of_stray`: with a stray, the search for the common root ends at the top.
* `Plan.ne_commonRoot`: every file of the graph of an entry has a name below the common root.
* `Plan.make_fails_exactly`: when and how planning fails.
-/

namespace ScriptTree

open List

/-! ### Where references lead -/

theorem anchor_dependencyPath (directory : Path) (t : Text) :
    (dependencyPath directory t).anchor
      = if Path.anchorOf t = .relative then directory.anchor else Path.anchorOf t := by
  show (directory.join (Path.ofText t)).anchor = _
  rw [Path.join]
  by_cases h : Path.anchorOf t = .relative
  · have hrelative : (Path.ofText t).isAbsolute = false := by simp [Path.isAbsolute, Path.ofText, h]
    rw [if_neg (by simp [hrelative]), if_pos h]
  · have habsolute : (Path.ofText t).isAbsolute = true := by simp [Path.isAbsolute, Path.ofText, h]
    rw [if_pos habsolute, if_neg h]
    rfl

/-- An edge **stays** at a root: its specifier spells out none, or this one. -/
def Edge.StaysAt (a : Anchor) (e : Edge) : Prop :=
  Path.anchorOf e.specifier = .relative ∨ Path.anchorOf e.specifier = a

theorem Edge.staysAt_iff {a : Anchor} {e : Edge} (directory : Path) (h : directory.anchor = a) :
    (dependencyPath directory e.specifier).anchor = a ↔ e.StaysAt a := by
  rw [anchor_dependencyPath, StaysAt]
  by_cases hrelative : Path.anchorOf e.specifier = .relative
  · simp [hrelative, h]
  · simp [hrelative]

namespace Graph

variable {fs : FileSystem} {names : MarkupNames} {g g' : Graph} {a : Anchor}

/-- All edges of a graph **stay** at a root. -/
def StaysAt (a : Anchor) (g : Graph) : Prop :=
  ∀ file ∈ g.files, ∀ e ∈ file.internalEdges, e.StaysAt a

/-- **One step** of a graph whose edges stay at a root stays there. -/
theorem anchors_of_visit {frame : Frame} {rest : List Frame} {next : Option (List Frame)}
    (h : g.StaysAt a → (∀ f ∈ frame :: rest, f.rawPath.anchor = a) ∧
      ∀ file ∈ g.files, file.path.anchor = a)
    (hvisit : visit fs names frame g = .ok (g', next)) (hstays : g'.StaysAt a) :
    (∀ f ∈ next.getD [] ++ rest, f.rawPath.anchor = a) ∧
      ∀ file ∈ g'.files, file.path.anchor = a := by
  -- A reference to something known adds no file and leaves nothing to follow.
  have hknown (hsame : g'.files = g.files) (hnext : next = none) :
      (∀ f ∈ next.getD [] ++ rest, f.rawPath.anchor = a) ∧
        ∀ file ∈ g'.files, file.path.anchor = a := by
    obtain ⟨hframes, hfiles⟩ := h (by rwa [StaysAt, ← hsame])
    rw [hnext, hsame]
    exact ⟨fun f hf ↦ hframes f (mem_cons_of_mem _ hf), hfiles⟩
  rcases visit_cases hvisit with ⟨p, -, rfl, rfl⟩ | ⟨p, -, hresolve, hcases⟩
  · exact hknown (noteConflict_files _) rfl
  rcases hcases with ⟨file, -, rfl, rfl⟩ | ⟨tree, all, -, -, -, rfl, rfl⟩
  · exact hknown (noteConflict_files _) rfl
  · -- The new file starts where its reference does, and its own references stay.
    rw [StaysAt, addFile_files] at hstays
    obtain ⟨hframes, hfiles⟩ := h fun file hfile ↦ hstays file (mem_append_left _ hfile)
    have hp : p.anchor = a :=
      (FileSystem.anchor_resolve hresolve).trans (hframes frame mem_cons_self)
    refine ⟨fun f hf ↦ ?_, fun file hfile ↦ ?_⟩
    · rcases mem_append.1 hf with hf | hf
      · obtain ⟨e, he, hinternal, hraw⟩ := mem_framesOf hf
        have hedge : e ∈ (newFile frame p tree all).internalEdges :=
          mem_filter.2 ⟨he, hinternal⟩
        have hstay := hstays _ (mem_append_right _ (mem_singleton_self _)) e hedge
        rw [hraw]
        exact (Edge.staysAt_iff p.parent hp).2 hstay
      · exact hframes f (mem_cons_of_mem _ hf)
    · rw [addFile_files] at hfile
      rcases mem_append.1 hfile with hfile | hfile
      · exact hfiles file hfile
      · exact mem_singleton.1 hfile ▸ hp

/-- What a known path stands for starts at the **same root**. -/
theorem Followed.anchor_eq {start : Frame} {done waiting : List Frame}
    (h : Followed fs names start done waiting g) {raw p : Path}
    (hp : g.aliases.lookup raw = some p) : p.anchor = raw.anchor := by
  obtain ⟨f, -, hresolve⟩ := h.resolved raw p hp
  exact FileSystem.anchor_resolve hresolve

/-- **No file strays** exactly when all edges stay at the root of the entry. -/
theorem anchors_iff {entry : Path} (h : build fs names entry = .ok g) :
    (∀ file ∈ g.files, file.path.anchor = (Path.absolute fs.here entry).anchor) ↔
      g.StaysAt (Path.absolute fs.here entry).anchor := by
  constructor
  · intro hanchors file hfile e he
    obtain ⟨order, horder⟩ := exists_followed h
    obtain ⟨target, htarget, -, halias⟩ := horder.exists_dependency hfile he
    refine (Edge.staysAt_iff file.directory (hanchors file hfile)).1 ?_
    rw [← horder.anchor_eq halias, hanchors target htarget]
  · intro hstays
    refine (explore_induction (P := fun waiting g ↦
      g.StaysAt (Path.absolute fs.here entry).anchor →
        (∀ f ∈ waiting, f.rawPath.anchor = (Path.absolute fs.here entry).anchor) ∧
          ∀ file ∈ g.files, file.path.anchor = (Path.absolute fs.here entry).anchor)
      (fun _ _ _ _ _ h hvisit ↦ anchors_of_visit h hvisit) _ ?_ h hstays).2
    intro _
    exact ⟨by simp, by simp⟩

/-- The files of a graph are **files** of the file system. -/
theorem isFile_of_build {entry : Path} (h : build fs names entry = .ok g) {file : SourceFile}
    (hfile : file ∈ g.files) : fs.isFile file.path = true := by
  obtain ⟨order, horder⟩ := exists_followed h
  obtain ⟨tree, -, hload⟩ := horder.isClosed.loaded file hfile
  obtain ⟨text, hread, -⟩ := bind_eq_ok_iff.1 hload
  exact FileSystem.isFile_of_readText hread

end Graph

/-! ### The common root -/

section CommonRoot

variable {paths : List Path} {start p : Path}

theorem firstAbove_mem (paths : List Path) (directory : Path) (above : List Path) :
    firstAbove paths directory above ∈ directory :: above := by
  induction above generalizing directory with
  | nil => exact mem_singleton_self _
  | cons next above ih =>
    rw [firstAbove]
    split
    · exact mem_cons_self
    · exact mem_cons_of_mem _ (ih next)

/-- The start lies **below** the common root. -/
theorem start_isBelow_commonRoot (start : Path) (paths : List Path) :
    start.isBelow (commonRoot start paths) = true := by
  rcases mem_cons.1 (firstAbove_mem paths start start.parents) with heq | hmem
  · rw [commonRoot, heq]
    exact Path.isBelow_iff.2 ⟨rfl, prefix_rfl⟩
  · obtain ⟨i, -, heq⟩ := mem_map.1 hmem
    rw [commonRoot, ← heq]
    exact Path.isBelow_iff.2 ⟨rfl, List.take_prefix _ _⟩

/-- A search that finds nothing ends at the **last** directory. -/
theorem firstAbove_eq_getLast {directory : Path} {above : List Path}
    (h : ∀ d ∈ directory :: above, ∃ p ∈ paths, p.isBelow d = false) :
    firstAbove paths directory above = (directory :: above).getLast (cons_ne_nil _ _) := by
  induction above generalizing directory with
  | nil => rfl
  | cons next above ih =>
    obtain ⟨p, hp, hbelow⟩ := h directory mem_cons_self
    have hall : ¬ paths.all (·.isBelow directory) = true := fun hall ↦
      Bool.false_ne_true (hbelow.symm.trans (all_eq_true.1 hall p hp))
    rw [firstAbove, if_neg hall, ih fun d hd ↦ h d (mem_cons_of_mem _ hd)]
    exact (getLast_cons_cons ..).symm

theorem getLast_parents (start : Path) :
    (start :: start.parents).getLast (cons_ne_nil _ _) = ⟨start.anchor, []⟩ := by
  by_cases hparts : start.parts = []
  · have hnil : start.parents = [] := by simp [Path.parents, hparts]
    simp only [hnil, getLast_singleton]
    rw [← hparts]
  · have hne : start.parents ≠ [] := by simp [Path.parents, hparts]
    rw [getLast_cons hne]
    simp [Path.parents]

/-- With a path from the other root, the search for a common root **ends at the top**. -/
theorem commonRoot_of_stray (hp : p ∈ paths) (hanchor : p.anchor ≠ start.anchor) :
    commonRoot start paths = ⟨start.anchor, []⟩ := by
  rw [commonRoot, firstAbove_eq_getLast, getLast_parents]
  intro d hd
  have hsame : d.anchor = start.anchor := by
    rcases mem_cons.1 hd with rfl | hd
    · rfl
    · obtain ⟨i, -, rfl⟩ := mem_map.1 hd
      rfl
  refine ⟨p, hp, eq_false_of_ne_true fun hbelow ↦ hanchor ?_⟩
  rw [(Path.isBelow_iff.1 hbelow).1, hsame]

end CommonRoot

/-- What lies above a file is a **directory**. -/
theorem FileSystem.isDirectory_of_isBelow {fs : FileSystem} {p d : Path} (hp : p.isAbsolute = true)
    (hfile : fs.isFile p = true) (h : p.parent.isBelow d = true) : fs.isDirectory d = true := by
  obtain ⟨l, content, executable, hstat⟩ := isFile_iff.1 hfile
  have hlocate := (stat_eq_ok_iff.1 hstat).1
  have hanchor : p.anchor = d.anchor := (Path.isBelow_iff.1 h).1
  have hparent := Path.eq_append_of_isBelow h
  generalize p.parent.parts.drop d.parts.length = names at hparent
  have hdirectory : p.parts.dropLast = d.parts ++ names := by
    show p.parent.parts = d.parts ++ names
    rw [hparent]
    rfl
  -- The path is the directory with at least its own name after it.
  have hne := parts_ne_nil_of_isFile hp hfile
  have hpath : p = d.append (names ++ [p.parts.getLast hne]) := by
    show (⟨p.anchor, p.parts⟩ : Path) = ⟨d.anchor, d.parts ++ _⟩
    rw [← hanchor, ← append_assoc, ← hdirectory, dropLast_concat_getLast]
  have habsolute : d.isAbsolute = true := by
    rw [Path.isAbsolute, ← hanchor]
    exact hp
  rw [hpath] at hlocate
  exact isDirectory_of_append habsolute (by simp) hlocate

namespace Plan

variable {fs : FileSystem} {names : MarkupNames} {entry : Text} {g : Graph}
  {file stray : SourceFile} {out root : Path} {files before : List SourceFile}

/-! ### Every file has a name below the root -/

/-- The **entry** of a graph, below whose directory the search for the common root starts. -/
theorem exists_start (hbuild : Graph.build fs names (Path.ofText entry) = .ok g) (out : Path) :
    ∃ file ∈ g.files, startOf out g = file.path.parent ∧
      file.path.anchor = (Path.absolute fs.here (Path.ofText entry)).anchor := by
  obtain ⟨order, horder⟩ := Graph.exists_followed hbuild
  obtain ⟨file, hfile, halias, hentry, -⟩ := horder.isClosed.entry
  exact ⟨file, hfile, by rw [startOf, hentry], horder.anchor_eq halias⟩

/-- The common root is a directory, so **no file** of the graph of an entry is the common root. -/
theorem ne_commonRoot (hfs : fs.WellNamed)
    (hbuild : Graph.build fs names (Path.ofText entry) = .ok g) (out : Path)
    (hfile : file ∈ g.files) :
    file.path ≠ commonRoot (startOf out g) (g.files.map (·.path)) := by
  obtain ⟨first, hfirst, hstart, -⟩ := exists_start hbuild out
  have hproper := (Graph.traced_build hfs hbuild).paths first hfirst
  have hroot : fs.isDirectory (commonRoot (startOf out g) (g.files.map (·.path))) = true := by
    refine FileSystem.isDirectory_of_isBelow hproper.absolute
      (Graph.isFile_of_build hbuild hfirst) ?_
    rw [← hstart]
    exact start_isBelow_commonRoot _ _
  intro heq
  have hisFile := Graph.isFile_of_build hbuild hfile
  rw [← heq, FileSystem.isDirectory_eq_false_of_isFile hisFile] at hroot
  cases hroot

/-! ### How the walk through the files ends -/

/-- Files with names below the root are **planned**, or two of them share a place. -/
theorem foldlM_of_named (out : Path) (hbelow : ∀ file ∈ files, file.path.isBelow root = true)
    (hnamed : ∀ file ∈ files, file.path ≠ root) :
    Compatible out root files ∧
        files.foldlM (addTarget out root) [] = .ok (files.map (placed out root)) ∨
      ¬ Compatible out root files ∧ ∃ t first second,
        files.foldlM (addTarget out root) [] = .error (.write t (.shared first second)) := by
  have hempty : Compatible out root [] := ⟨by simp, nodup_nil⟩
  rcases foldlM_addTarget hempty hbelow with
    hall | ⟨before, file, after, e, rfl, -, hrefuses, hfold⟩
  · exact .inl hall
  · refine .inr ⟨hrefuses.not_compatible, ?_⟩
    cases hrefuses with
    | nameless hroot => exact absurd hroot (hnamed file (by simp))
    | shared _ _ _ => exact ⟨_, _, _, hfold⟩

theorem addTarget_of_stray (h : stray.path.anchor ≠ root.anchor) (targets : List (Path × Path)) :
    addTarget out root targets stray = .error (.defect (.outside stray.path root)) := by
  have hrelative : stray.path.relativeTo? root = none := by simp [Path.relativeTo?, h]
  rw [addTarget, targetOf, hrelative]
  rfl

/-- The walk **ends at the first stray**, unless two earlier files share a place. -/
theorem foldlM_of_stray (out : Path) (after : List SourceFile)
    (hbelow : ∀ file ∈ before, file.path.isBelow root = true)
    (hnamed : ∀ file ∈ before, file.path ≠ root) (hstray : stray.path.anchor ≠ root.anchor) :
    Compatible out root before ∧ (before ++ stray :: after).foldlM (addTarget out root) []
        = .error (.defect (.outside stray.path root)) ∨
      ¬ Compatible out root before ∧ ∃ t first second,
        (before ++ stray :: after).foldlM (addTarget out root) []
          = .error (.write t (.shared first second)) := by
  rw [foldlM_append]
  rcases foldlM_of_named out hbelow hnamed with ⟨hall, hfold⟩ | ⟨hnot, t, first, second, hfold⟩
  · rw [hfold]
    refine .inl ⟨hall, ?_⟩
    show (addTarget out root (before.map (placed out root)) stray >>= _) = _
    rw [addTarget_of_stray hstray]
    rfl
  · rw [hfold]
    exact .inr ⟨hnot, t, first, second, rfl⟩

/-! ### How planning fails -/

/-- If some file strays, there is a **first** one. -/
theorem exists_first_stray {a : Anchor} (h : ¬ ∀ file ∈ files, file.path.anchor = a) :
    ∃ before stray after, files = before ++ stray :: after ∧
      (∀ file ∈ before, file.path.anchor = a) ∧ stray.path.anchor ≠ a := by
  cases hfind : files.find? (fun file ↦ file.path.anchor ≠ a) with
  | none =>
    refine absurd (fun file hfile ↦ ?_) h
    simpa using find?_eq_none.1 hfind file hfile
  | some stray =>
    obtain ⟨hstray, before, after, hsplit, hbefore⟩ := find?_eq_some_iff_append.1 hfind
    exact ⟨before, stray, after, hsplit, fun file hfile ↦ by simpa using hbefore file hfile,
      of_decide_eq_true hstray⟩

section Make

variable (hfs : fs.WellNamed) (hbuild : Graph.build fs names (Path.ofText entry) = .ok g)
include hfs hbuild

/-- **Without a stray** there is a plan, or two files share a place. -/
theorem make_of_anchors (output : Path)
    (h : ∀ file ∈ g.files,
      file.path.anchor = (Path.absolute fs.here (Path.ofText entry)).anchor) :
    (∃ plan, make fs.here g output = .ok plan) ∨
      ∃ t first second, make fs.here g output = .error (.write t (.shared first second)) := by
  obtain ⟨first, hfirst, hstart, hanchor⟩ :=
    exists_start hbuild (Path.absolute fs.here output)
  have hbelow : ∀ file ∈ g.files, file.path.isBelow
      (commonRoot (startOf (Path.absolute fs.here output) g) (g.files.map (·.path))) = true := by
    intro file hfile
    refine isBelow_commonRoot (fun p hp ↦ ?_) (mem_map_of_mem hfile)
    obtain ⟨other, hother, rfl⟩ := mem_map.1 hp
    rw [hstart, h other hother, ← hanchor]
    rfl
  rcases foldlM_of_named (Path.absolute fs.here output) hbelow
    fun file ↦ ne_commonRoot hfs hbuild _ with ⟨-, hfold⟩ | ⟨-, t, first, second, hfold⟩
  · exact .inl ⟨_, by rw [make, hfold]; rfl⟩
  · exact .inr ⟨t, first, second, by rw [make, hfold]; rfl⟩

/-- **With a stray** there is no plan: it lies outside the common root, or two files before it share
a place. -/
theorem make_of_stray (output : Path) {a : Anchor} {after : List SourceFile}
    (ha : a = (Path.absolute fs.here (Path.ofText entry)).anchor)
    (hsplit : g.files = before ++ stray :: after) (hbefore : ∀ file ∈ before, file.path.anchor = a)
    (hstray : stray.path.anchor ≠ a) :
    Set.InjOn (place (Path.absolute fs.here output) ⟨a, []⟩) {file | file ∈ before} ∧
        make fs.here g output = .error (.defect (.outside stray.path ⟨a, []⟩)) ∨
      ¬ Set.InjOn (place (Path.absolute fs.here output) ⟨a, []⟩) {file | file ∈ before} ∧
        ∃ t first second, make fs.here g output = .error (.write t (.shared first second)) := by
  obtain ⟨first, hfirst, hstart, hanchor⟩ :=
    exists_start hbuild (Path.absolute fs.here output)
  have hroot : commonRoot (startOf (Path.absolute fs.here output) g) (g.files.map (·.path))
      = ⟨a, []⟩ := by
    have hmem : stray.path ∈ g.files.map (·.path) :=
      mem_map_of_mem (hsplit ▸ mem_append_right _ mem_cons_self)
    have hparent : first.path.parent.anchor = a := hanchor.trans ha.symm
    rw [hstart, commonRoot_of_stray hmem (by rwa [hparent]), hparent]
  have hnamed : ∀ file ∈ before, file.path ≠ ⟨a, []⟩ := fun file hfile ↦
    hroot ▸ ne_commonRoot hfs hbuild _ (hsplit ▸ mem_append_left _ hfile)
  have hbelow : ∀ file ∈ before, file.path.isBelow ⟨a, []⟩ = true := fun file hfile ↦
    Path.isBelow_iff.2 ⟨hbefore file hfile, nil_prefix⟩
  have hpaths : (before.map (·.path)).Nodup := by
    have hnodup := (Graph.traced_build hfs hbuild).nodup
    rw [hsplit, map_append] at hnodup
    exact hnodup.of_append_left
  rcases foldlM_of_stray (Path.absolute fs.here output) after hbelow hnamed hstray with
    ⟨hall, hfold⟩ | ⟨hnot, t, first, second, hfold⟩
  · exact .inl ⟨((compatible_iff hpaths).1 hall).2, by rw [make, hroot, hsplit, hfold]; rfl⟩
  · refine .inr ⟨fun hinj ↦ hnot ((compatible_iff hpaths).2 ⟨hnamed, hinj⟩), t, first, second, ?_⟩
    rw [make, hroot, hsplit, hfold]
    rfl

/-- Where planning **fails**, two files share a place, or a stray comes before any two that do. -/
theorem make_error_cases {output : Path} {e : Failure} (he : make fs.here g output = .error e) :
    let a := (Path.absolute fs.here (Path.ofText entry)).anchor
    (∃ t first second, e = .write t (.shared first second)) ∨
      ∃ before stray after, g.files = before ++ stray :: after ∧
        (∀ file ∈ before, file.path.anchor = a) ∧ stray.path.anchor ≠ a ∧
        Set.InjOn (place (Path.absolute fs.here output) ⟨a, []⟩) {file | file ∈ before} ∧
        e = .defect (.outside stray.path ⟨a, []⟩) := by
  intro a
  by_cases hall : ∀ file ∈ g.files, file.path.anchor = a
  · rcases make_of_anchors hfs hbuild output hall with ⟨plan, hplan⟩ | ⟨t, first, second, hshared⟩
    · exact nomatch hplan.symm.trans he
    · exact .inl ⟨t, first, second, Except.error.inj (he.symm.trans hshared)⟩
  · obtain ⟨before, stray, after, hsplit, hbefore, hstray⟩ := exists_first_stray hall
    rcases make_of_stray hfs hbuild output rfl hsplit hbefore hstray with
      ⟨hinj, hdefect⟩ | ⟨-, t, first, second, hshared⟩
    · exact .inr ⟨before, stray, after, hsplit, hbefore, hstray, hinj,
        Except.error.inj (he.symm.trans hdefect)⟩
    · exact .inl ⟨t, first, second, Except.error.inj (he.symm.trans hshared)⟩

end Make

/-- **How planning fails.** For the graph of an entry and any output directory, planning fails only
because two files share a place, or with a defect. The defect is that a file lies outside the top of
the root at which the entry starts. It comes up exactly when the first file that starts at another
root comes before any two files that share a place. There is no such file exactly when every
internal specifier in the graph is relative or spells out the root of the entry. -/
theorem make_fails_exactly (hfs : fs.WellNamed)
    (hbuild : Graph.build fs names (Path.ofText entry) = .ok g) (output : Path) :
    let a := (Path.absolute fs.here (Path.ofText entry)).anchor
    (∀ e, make fs.here g output = .error e →
      (∃ t first second, e = .write t (.shared first second)) ∨ ∃ d, e = .defect d) ∧
    (∀ d, make fs.here g output = .error (.defect d) ↔
      ∃ before stray after, g.files = before ++ stray :: after ∧
        (∀ file ∈ before, file.path.anchor = a) ∧ stray.path.anchor ≠ a ∧
        Set.InjOn (place (Path.absolute fs.here output) ⟨a, []⟩) {file | file ∈ before} ∧
        d = .outside stray.path ⟨a, []⟩) ∧
    ((∀ file ∈ g.files, file.path.anchor = a) ↔
      ∀ file ∈ g.files, ∀ e ∈ file.internalEdges, e.StaysAt a) := by
  intro a
  refine ⟨fun e he ↦ ?_, fun d ↦ ⟨fun hd ↦ ?_, ?_⟩, Graph.anchors_iff hbuild⟩
  · rcases make_error_cases hfs hbuild he with hshared | ⟨_, _, _, -, -, -, -, hdefect⟩
    · exact .inl hshared
    · exact .inr ⟨_, hdefect⟩
  · rcases make_error_cases hfs hbuild hd with
      ⟨t, first, second, hshared⟩ | ⟨before, stray, after, hsplit, hbefore, hstray, hinj, hdefect⟩
    · exact nomatch hshared
    · exact ⟨before, stray, after, hsplit, hbefore, hstray, hinj, Failure.defect.inj hdefect⟩
  · rintro ⟨before, stray, after, hsplit, hbefore, hstray, hinj, rfl⟩
    rcases make_of_stray hfs hbuild output rfl hsplit hbefore hstray with
      ⟨-, hdefect⟩ | ⟨hnot, -⟩
    · exact hdefect
    · exact absurd hinj hnot

/-- Two scripts, of which the second is named from the root with two slashes. -/
def doubled : FileSystem where
  entries := [
    (["main.js"], .file (Utf8.encodeChars "import '//a.js'".toList) false),
    (["a.js"], .file [] false)]
  cwd := []

theorem wellNamed_doubled : doubled.WellNamed := ⟨by decide, by decide⟩

/-- What planning the graph of `doubled` comes to. -/
theorem exists_doubled : ∃ g, Graph.build doubled {} (Path.ofText "main.js") = .ok g ∧
    make doubled.here g (Path.ofText "out")
      = .error (.defect (.outside ⟨.doubleRoot, ["a.js"]⟩ ⟨.root, []⟩)) := by
  obtain ⟨g, hg, h⟩ := exists_of_succeedsWith
    (x := Graph.build doubled {} (Path.ofText "main.js"))
    (p := fun g ↦ decide (make doubled.here g (Path.ofText "out")
      = .error (.defect (.outside ⟨.doubleRoot, ["a.js"]⟩ ⟨.root, []⟩)))) (by decide +kernel)
  exact ⟨g, hg, of_decide_eq_true h⟩

/-- The second script of `doubled` **strays**, and an edge leads there. -/
theorem make_doubled : ∃ g before stray after,
    Graph.build doubled {} (Path.ofText "main.js") = .ok g ∧
      g.files = before ++ stray :: after ∧ stray.path = ⟨.doubleRoot, ["a.js"]⟩ ∧
      (∀ file ∈ before, file.path.anchor = .root) ∧
      make doubled.here g (Path.ofText "out") = .error (.defect (.outside stray.path ⟨.root, []⟩)) ∧
      ∃ file ∈ g.files, ∃ e ∈ file.internalEdges, ¬ e.StaysAt .root := by
  obtain ⟨g, hg, hmake⟩ := exists_doubled
  obtain ⟨-, hdefect, hanchors⟩ := make_fails_exactly wellNamed_doubled hg (Path.ofText "out")
  obtain ⟨before, stray, after, hsplit, hbefore, hstray, -, hd⟩ := (hdefect _).1 hmake
  obtain ⟨hpath, -⟩ := Defect.outside.inj hd
  refine ⟨g, before, stray, after, hg, hsplit, hpath.symm, hbefore, hpath ▸ hmake, ?_⟩
  have hnot := mt hanchors.2 fun hall ↦
    hstray (hall stray (hsplit ▸ List.mem_append_right _ List.mem_cons_self))
  push Not at hnot
  exact hnot

/-- Planning may fail with a **defect**, for a graph that was built without one. -/
theorem make_defect : ∃ g d, Graph.build doubled {} (Path.ofText "main.js") = .ok g ∧
    make doubled.here g (Path.ofText "out") = .error (.defect d) := by
  obtain ⟨g, hg, hmake⟩ := exists_doubled
  exact ⟨g, _, hg, hmake⟩

end Plan

end ScriptTree
