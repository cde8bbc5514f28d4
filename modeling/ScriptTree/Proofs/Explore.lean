import ScriptTree.Graph.Explore
import ScriptTree.Proofs.Outcome
import ScriptTree.Proofs.Path

/-!
# Explored graphs

Following one reference can do three things: note that the path is known, note that it stands for a
known file, or add a file and its own references. `Graph.visit_cases` says so once, and an invariant
of graphs that one step keeps holds of every graph that was explored.

The invariant is that nothing is lost: every reference of a file leads on, or still waits on the
stack.

## Main results

* `Graph.visit_cases`: what following a reference can do.
* `Graph.explore_induction`: what each step keeps, exploring keeps.
* `Graph.traced_build`: the graph of an entry is traced, with nothing left to follow.
-/

namespace ScriptTree

open List Option
open Path (IsProper IsProperName)

/-! ### Resolving keeps names proper -/

namespace FileSystem

variable {fs : FileSystem} {candidate : Path} {hint : Text} {mechanism : Mechanism}
  {specifier : Option Text}

/-- A file system in which **every name is proper**. -/
structure WellNamed (fs : FileSystem) : Prop where
  entries : ∀ e ∈ fs.entries, ∀ name ∈ e.1, IsProperName name
  cwd : ∀ name ∈ fs.cwd, IsProperName name

theorem WellNamed.isProper_here (h : fs.WellNamed) : fs.here.IsProper := ⟨rfl, h.cwd⟩

theorem WellNamed.of_mem_names (h : fs.WellNamed) {l : Location} {name : Text}
    (hname : name ∈ fs.names l) : IsProperName name := by
  obtain ⟨e, he, hlast⟩ := mem_filterMap.1 hname
  cases hl : e.1.getLast? with
  | none => simp [hl] at hlast
  | some last =>
    simp only [hl, ite_none_right_eq_some, Option.some.injEq] at hlast
    exact hlast.2 ▸ h.entries e he last (mem_of_getLast? hl)

theorem WellNamed.of_mem_list (h : fs.WellNamed) {p : Path} {names : List Text}
    (hlist : fs.list p = .ok names) {name : Text} (hname : name ∈ names) : IsProperName name := by
  unfold list failAt at hlist
  cases hstat : fs.stat p with
  | error cause => simp [hstat, bind, Except.bind] at hlist
  | ok found =>
    obtain ⟨l, entry⟩ := found
    cases entry with
    | directory =>
      simp only [hstat, bind, Except.bind, Except.ok.injEq] at hlist
      exact h.of_mem_names (hlist ▸ hname)
    | file content executable => simp [hstat, bind, Except.bind] at hlist
    | link target => simp [hstat, bind, Except.bind] at hlist

theorem mem_of_firstNamed? {stem name : Text} {extensions names : List Text}
    (h : firstNamed? stem extensions names = some name) : name ∈ names := by
  simpa using find?_some h

theorem mem_of_sole? {names : List Text} {name : Text} (h : sole? names = some name) :
    name ∈ names := by
  cases names with
  | nil => simp [sole?] at h
  | cons first rest =>
    simp only [sole?, ite_none_right_eq_some, Option.some.injEq] at h
    exact h.2 ▸ mem_cons_self

/-- Where a choice comes from. -/
def IsOffered (siblings indices : List Text) : Choice → Prop
  | .sibling name => name ∈ siblings
  | .index name => name ∈ indices

/-- Only what is **offered** is picked. -/
theorem isOffered_of_pick {name hint : Text} {siblings indices : List Text} {choice : Choice}
    (h : pick name hint siblings indices = some choice) : IsOffered siblings indices choice := by
  rcases or_eq_some_iff.1 h with h | ⟨-, h⟩
  · rcases or_eq_some_iff.1 h with h | ⟨-, h⟩
    · unfold pickHinted at h
      split at h
      · simp at h
      · split at h
        · next hmem =>
          cases h
          simpa [IsOffered] using hmem
        · split at h
          · next hmem =>
            cases h
            simpa [IsOffered] using hmem
          · simp at h
    · rcases or_eq_some_iff.1 h with h | ⟨-, h⟩
      · obtain ⟨found, hfound, rfl⟩ := map_eq_some_iff.1 h
        exact mem_of_firstNamed? hfound
      · obtain ⟨found, hfound, rfl⟩ := map_eq_some_iff.1 h
        exact mem_of_firstNamed? hfound
  · unfold pickOnly at h
    split at h
    · next hmem =>
      cases h
      simpa [IsOffered] using hmem
    · rcases or_eq_some_iff.1 h with h | ⟨-, h⟩
      · obtain ⟨found, hfound, rfl⟩ := map_eq_some_iff.1 h
        exact mem_of_sole? hfound
      · obtain ⟨found, hfound, rfl⟩ := map_eq_some_iff.1 h
        exact mem_of_sole? hfound

/-- How a candidate is **resolved**: it is a file, or its directory is listed and one of the files
that are offered there is picked. -/
theorem resolve_cases {p : Path}
    (h : fs.resolve candidate hint mechanism specifier = .ok p) :
    fs.isFile candidate = true ∧ p = candidate ∨
      ∃ names indices choice, fs.list candidate.parent = .ok names ∧
        (if names.contains candidate.name then fs.indexFiles candidate else .ok []) = .ok indices ∧
        pick candidate.name hint (fs.filesWithStem candidate.parent names candidate.name) indices
          = some choice ∧
        p = choicePath candidate choice := by
  unfold resolve at h
  split at h
  · next hfile =>
    simp only [pure_eq_ok_iff] at h
    exact .inl ⟨hfile, h.symm⟩
  · right
    cases hdefect : pathDefect? candidate.parent with
    | some defect => simp [hdefect, bind_eq_ok_iff] at h
    | none =>
      cases hlist : fs.list candidate.parent with
      | error e =>
        simp only [hdefect, hlist] at h
        split at h <;> simp at h
      | ok names =>
        simp only [hdefect, hlist] at h
        split at h
        · next hmem =>
          obtain ⟨indices, hindices, h⟩ := bind_eq_ok_iff.1 h
          split at h
          · next choice hchoice =>
            exact ⟨names, indices, choice, rfl, by rwa [if_pos hmem], hchoice,
              (pure_eq_ok_iff.1 h).symm⟩
          · simp at h
        · next hmem =>
          obtain ⟨indices, hindices, h⟩ := bind_eq_ok_iff.1 h
          split at h
          · next choice hchoice =>
            exact ⟨names, indices, choice, rfl, by rwa [if_neg hmem], hchoice,
              (pure_eq_ok_iff.1 h).symm⟩
          · simp at h

/-- What a candidate stands for starts at the **same root**. -/
theorem anchor_resolve {p : Path} (h : fs.resolve candidate hint mechanism specifier = .ok p) :
    p.anchor = candidate.anchor := by
  rcases resolve_cases h with ⟨-, rfl⟩ | ⟨names, indices, choice, -, -, -, rfl⟩
  · rfl
  · cases choice with
    | sibling name => rfl
    | index name => rfl

/-- A candidate stands for a **file**. -/
theorem isFile_resolve {p : Path} (h : fs.resolve candidate hint mechanism specifier = .ok p) :
    fs.isFile p = true := by
  rcases resolve_cases h with ⟨hfile, rfl⟩ | ⟨names, indices, choice, -, hindices, hpick, rfl⟩
  · exact hfile
  · have hoffered := isOffered_of_pick hpick
    have hfilter {directory : Path} {names : List Text} {stem name : Text}
        (hname : name ∈ fs.filesWithStem directory names stem) :
        fs.isFile (directory.child name) = true :=
      (Bool.and_eq_true_iff.1 (mem_filter.1 hname).2).2
    cases choice with
    | sibling name => exact hfilter hoffered
    | index name =>
      show fs.isFile (candidate.child name) = true
      split at hindices
      · rw [indexFiles] at hindices
        split at hindices
        · cases hlist : fs.list candidate with
          | error e => simp [hlist] at hindices
          | ok listed =>
            simp only [hlist, Except.ok.injEq] at hindices
            exact hfilter (hindices ▸ hoffered)
        · simp only [Except.ok.injEq] at hindices
          simp [IsOffered, ← hindices] at hoffered
      · simp only [Except.ok.injEq] at hindices
        simp [IsOffered, ← hindices] at hoffered

theorem WellNamed.of_mem_indexFiles (h : fs.WellNamed) {indices : List Text} {name : Text}
    (hindices : fs.indexFiles candidate = .ok indices) (hname : name ∈ indices) :
    IsProperName name := by
  unfold indexFiles at hindices
  split at hindices
  · cases hlist : fs.list candidate with
    | error e => simp [hlist] at hindices
    | ok names =>
      simp only [hlist, Except.ok.injEq] at hindices
      exact h.of_mem_list hlist (mem_of_mem_filter (hindices ▸ hname))
  · simp only [Except.ok.injEq] at hindices
    simp [← hindices] at hname

/-- What a proper candidate **stands for** is proper. -/
theorem WellNamed.isProper_resolve (h : fs.WellNamed) (hcandidate : candidate.IsProper) {p : Path}
    (hp : fs.resolve candidate hint mechanism specifier = .ok p) : p.IsProper := by
  rcases resolve_cases hp with ⟨-, rfl⟩ | ⟨names, indices, choice, hlist, hindices, hpick, rfl⟩
  · exact hcandidate
  · have hoffered := isOffered_of_pick hpick
    cases choice with
    | sibling name =>
      exact hcandidate.parent.child (h.of_mem_list hlist (mem_of_mem_filter hoffered))
    | index name =>
      refine hcandidate.child ?_
      split at hindices
      · exact h.of_mem_indexFiles hindices hoffered
      · simp only [Except.ok.injEq] at hindices
        simp [IsOffered, ← hindices] at hoffered

end FileSystem

/-! ### One reference -/

namespace Graph

variable {fs : FileSystem} {names : MarkupNames} {frame : Frame} {g g' : Graph}
  {next : Option (List Frame)}

/-- The graph with one more **alias**. -/
def addAlias (g : Graph) (raw p : Path) : Graph := { g with aliases := g.aliases ++ [(raw, p)] }

@[simp] theorem noteConflict_files (known : Option SourceFile) :
    (g.noteConflict known frame).files = g.files := by
  unfold noteConflict
  split
  · rfl
  · split <;> rfl

@[simp] theorem noteConflict_aliases (known : Option SourceFile) :
    (g.noteConflict known frame).aliases = g.aliases := by
  unfold noteConflict
  split
  · rfl
  · split <;> rfl

/-- The file that a reference **adds**. -/
def newFile (frame : Frame) (p : Path) (tree : SourceTree) (all : List Edge) : SourceFile where
  path := p
  rawPath := frame.rawPath
  hint := frame.hint
  mechanism := frame.mechanism
  format := chooseFormat frame.mechanism p tree all
  edges := all.filter (!·.isBuiltin)

@[simp] theorem addFile_files (p : Path) (tree : SourceTree) (all : List Edge) :
    (g.addFile frame p tree all).1.files = g.files ++ [newFile frame p tree all] := by
  unfold addFile
  split <;> rfl

@[simp] theorem addFile_aliases (p : Path) (tree : SourceTree) (all : List Edge) :
    (g.addFile frame p tree all).1.aliases = g.aliases := by
  unfold addFile
  split <;> rfl

/-- An alias and a file may be added in either order. -/
theorem addFile_addAlias (raw p q : Path) (tree : SourceTree) (all : List Edge) :
    ((g.addAlias raw q).addFile frame p tree all).1
      = (g.addFile frame p tree all).1.addAlias raw q := by
  unfold addFile
  split <;> rfl

/-- What **following a reference** can do: its path is known, or stands for a known file, or for a
new one, which is loaded and leaves its own references to follow. -/
theorem visit_cases (h : visit fs names frame g = .ok (g', next)) :
    (∃ p, g.aliases.lookup frame.rawPath = some p ∧
      g' = g.noteConflict (g.lookup frame.rawPath) frame ∧ next = none) ∨
    ∃ p, g.aliases.lookup frame.rawPath = none ∧
      fs.resolve frame.rawPath frame.hint frame.mechanism frame.specifier = .ok p ∧
      ((∃ file, g.file? p = some file ∧
          g' = (g.addAlias frame.rawPath p).noteConflict (some file) frame ∧ next = none) ∨
        ∃ tree edges, g.file? p = none ∧ load fs names p = .ok tree ∧
          allDependencies tree = .ok edges ∧
          g' = ((g.addAlias frame.rawPath p).addFile frame p tree edges).1 ∧
          next = some (framesOf p frame.hint (edges.filter (!·.isBuiltin)))) := by
  unfold visit at h
  split at h
  · next hknown =>
    obtain ⟨p, hp⟩ := isSome_iff_exists.1 hknown
    simp only [Except.ok.injEq, Prod.mk.injEq] at h
    exact .inl ⟨p, hp, h.1.symm, h.2.symm⟩
  · next hnew =>
    have hnone : g.aliases.lookup frame.rawPath = none := not_isSome_iff_eq_none.1 hnew
    obtain ⟨p, hp, h⟩ := bind_eq_ok_iff.1 h
    refine .inr ⟨p, hnone, hp, ?_⟩
    have hfile : ({ g with aliases := g.aliases ++ [(frame.rawPath, p)] } : Graph).file? p
        = g.file? p := rfl
    cases hknown : g.file? p with
    | some file =>
      simp only [hfile, hknown, pure_eq_ok_iff, Prod.mk.injEq] at h
      exact .inl ⟨file, rfl, h.1.symm, h.2.symm⟩
    | none =>
      simp only [hfile, hknown, bind_eq_ok_iff, pure_eq_ok_iff, Prod.mk.injEq] at h
      obtain ⟨tree, htree, edges, hedges, hg, hnext⟩ := h
      exact .inr ⟨tree, edges, rfl, htree, hedges, hg.symm, hnext.symm⟩

/-! ### All references -/

/-- **What each step keeps, exploring keeps.** The property speaks of the references that wait and
of the graph so far; in the end nothing waits. -/
theorem explore_induction {P : List Frame → Graph → Prop}
    (hstep : ∀ frame rest g g' next, P (frame :: rest) g → visit fs names frame g = .ok (g', next) →
      P (next.getD [] ++ rest) g') :
    ∀ (n : Nat) {stack : List Frame} {g g' : Graph}, P stack g →
      explore fs names n stack g = .ok g' → P [] g' := by
  -- Draining keeps the property if what it goes on with at a new file does.
  have hdrain : ∀ {onNew : List Frame → Graph → Except Failure Graph},
      (∀ stack g g', P stack g → onNew stack g = .ok g' → P [] g') →
      ∀ (stack : List Frame) {g g' : Graph}, P stack g →
        drain fs names onNew stack g = .ok g' → P [] g' := by
    intro onNew hnew stack
    induction stack with
    | nil =>
      intro g g' hP h
      simp only [drain, Except.ok.injEq] at h
      exact h ▸ hP
    | cons frame rest ih =>
      intro g g' hP h
      obtain ⟨⟨g₁, next⟩, hvisit, h⟩ := bind_eq_ok_iff.1 h
      have hP₁ := hstep frame rest g g₁ next hP hvisit
      cases next with
      | none => exact ih hP₁ h
      | some frames => exact hnew _ _ _ hP₁ h
  intro n
  induction n with
  | zero => exact fun {stack g g'} ↦ hdrain (fun _ _ _ _ h ↦ by simp at h) stack
  | succ n ih => exact fun {stack g g'} ↦ hdrain (fun _ _ _ hP h ↦ ih hP h) stack

/-- A graph on which nothing is lost: its files have proper paths of their own, each alias leads to
one of them, and each reference of a file is an alias or still **waits**. -/
structure Traced (waiting : List Frame) (g : Graph) : Prop where
  frames : ∀ frame ∈ waiting, frame.rawPath.IsProper
  paths : ∀ file ∈ g.files, file.path.IsProper
  nodup : (g.files.map (·.path)).Nodup
  aliases : ∀ a ∈ g.aliases, ∃ file ∈ g.files, file.path = a.2
  edges : ∀ file ∈ g.files, ∀ e ∈ file.internalEdges,
    (∃ p, g.aliases.lookup (dependencyPath file.directory e.specifier) = some p) ∨
      ∃ frame ∈ waiting, frame.rawPath = dependencyPath file.directory e.specifier

/-- The references of a file name the paths of its edges. -/
theorem mem_framesOf {p : Path} {hint : Text} {edges : List Edge} :
    frame ∈ framesOf p hint edges → ∃ e ∈ edges, e.isInternal ∧
      frame.rawPath = dependencyPath p.parent e.specifier := by
  simp only [framesOf, List.mem_reverse, List.mem_map, List.mem_filter]
  rintro ⟨e, ⟨he, hinternal⟩, rfl⟩
  exact ⟨e, he, hinternal, rfl⟩

theorem exists_mem_framesOf {p : Path} {edges : List Edge} {e : Edge} (hint : Text)
    (he : e ∈ edges) (hinternal : e.isInternal) :
    ∃ frame ∈ framesOf p hint edges, frame.rawPath = dependencyPath p.parent e.specifier := by
  simp only [framesOf, List.mem_reverse, List.mem_map, List.mem_filter]
  exact ⟨_, ⟨e, ⟨he, hinternal⟩, rfl⟩, rfl⟩

/-- The file at a path that a file has. -/
theorem exists_file? {file : SourceFile} (h : file ∈ g.files) :
    ∃ found ∈ g.files, g.file? file.path = some found ∧ found.path = file.path := by
  have hsome : (g.file? file.path).isSome := find?_isSome.2 ⟨file, h, by simp⟩
  obtain ⟨found, hfound⟩ := isSome_iff_exists.1 hsome
  exact ⟨found, mem_of_find?_eq_some hfound, hfound, by simpa using find?_some hfound⟩

theorem notMem_of_file?_eq_none {p : Path} (h : g.file? p = none) : p ∉ g.files.map (·.path) := by
  rw [List.mem_map]
  rintro ⟨file, hfile, rfl⟩
  simpa using List.find?_eq_none.1 h file hfile

variable {rest : List Frame}

theorem Traced.perm {waiting waiting' : List Frame} (h : Traced waiting g)
    (hperm : waiting.Perm waiting') : Traced waiting' g := by
  refine ⟨fun frame hframe ↦ h.frames frame (hperm.mem_iff.2 hframe), h.paths, h.nodup, h.aliases,
    fun file hfile e he ↦ ?_⟩
  rcases h.edges file hfile e he with hknown | ⟨frame, hframe, hraw⟩
  · exact .inl hknown
  · exact .inr ⟨frame, hperm.mem_iff.1 hframe, hraw⟩

/-- A reference to a known path may be dropped. -/
theorem Traced.drop (h : Traced (frame :: rest) g) {p : Path}
    (hp : g.aliases.lookup frame.rawPath = some p) : Traced rest g := by
  refine ⟨fun other hother ↦ h.frames other (mem_cons_of_mem _ hother), h.paths, h.nodup,
    h.aliases, fun file hfile e he ↦ ?_⟩
  rcases h.edges file hfile e he with hknown | ⟨other, hother, hraw⟩
  · exact .inl hknown
  · rcases mem_cons.1 hother with rfl | hother
    · exact .inl ⟨p, hraw ▸ hp⟩
    · exact .inr ⟨other, hother, hraw⟩

/-- A reference to a known file becomes an alias. -/
theorem Traced.addAlias (h : Traced (frame :: rest) g)
    (hnone : g.aliases.lookup frame.rawPath = none) {file : SourceFile} (hfile : file ∈ g.files) :
    Traced rest (g.addAlias frame.rawPath file.path) := by
  have hnew : (g.addAlias frame.rawPath file.path).aliases.lookup frame.rawPath
      = some file.path := by
    simp [Graph.addAlias, lookup_append, hnone]
  have hold : Traced (frame :: rest) (g.addAlias frame.rawPath file.path) := by
    refine ⟨h.frames, h.paths, h.nodup, fun a ha ↦ ?_, fun other hother e he ↦ ?_⟩
    · rcases mem_append.1 ha with ha | ha
      · exact h.aliases a ha
      · exact ⟨file, hfile, by rw [mem_singleton.1 ha]⟩
    · rcases h.edges other hother e he with ⟨p, hp⟩ | hwaits
      · exact .inl ⟨p, by simp [Graph.addAlias, lookup_append, hp]⟩
      · exact .inr hwaits
  exact hold.drop hnew

/-- A **new file** comes with its references. -/
theorem Traced.addFile {waiting : List Frame} (h : Traced waiting g) {p : Path}
    (hp : p.IsProper) (hnone : g.file? p = none) (frame : Frame) (tree : SourceTree)
    (all : List Edge) :
    Traced (framesOf p frame.hint (all.filter (!·.isBuiltin)) ++ waiting)
      (g.addFile frame p tree all).1 := by
  refine ⟨fun other hother ↦ ?_, fun file hfile ↦ ?_, ?_, fun a ha ↦ ?_, fun file hfile e he ↦ ?_⟩
  · rcases mem_append.1 hother with hother | hother
    · obtain ⟨e, -, -, hraw⟩ := mem_framesOf hother
      exact hraw ▸ Path.isProper_dependencyPath hp.parent _
    · exact h.frames other hother
  · rw [addFile_files] at hfile
    rcases mem_append.1 hfile with hfile | hfile
    · exact h.paths file hfile
    · exact mem_singleton.1 hfile ▸ hp
  · rw [addFile_files, map_append, nodup_append]
    refine ⟨h.nodup, by simp, fun a ha b hb ↦ ?_⟩
    rintro rfl
    obtain rfl : a = p := by simpa [newFile] using hb
    exact notMem_of_file?_eq_none hnone ha
  · rw [addFile_aliases] at ha
    obtain ⟨file, hfile, hpath⟩ := h.aliases a ha
    exact ⟨file, addFile_files (g := g) p tree all ▸ mem_append_left _ hfile, hpath⟩
  · rw [addFile_aliases]
    rw [addFile_files] at hfile
    rcases mem_append.1 hfile with hfile | hfile
    · rcases h.edges file hfile e he with hknown | ⟨other, hother, hraw⟩
      · exact .inl hknown
      · exact .inr ⟨other, mem_append_right _ hother, hraw⟩
    · obtain rfl := mem_singleton.1 hfile
      obtain ⟨hmem, hinternal⟩ := mem_filter.1 he
      obtain ⟨other, hother, hraw⟩ := exists_mem_framesOf frame.hint hmem hinternal
      exact .inr ⟨other, mem_append_left _ hother, hraw⟩

theorem Traced.noteConflict {waiting : List Frame} (h : Traced waiting g)
    (known : Option SourceFile) : Traced waiting (g.noteConflict known frame) := by
  obtain ⟨hframes, hpaths, hnodup, haliases, hedges⟩ := h
  exact ⟨hframes, by simpa using hpaths, by simpa using hnodup, by simpa using haliases,
    by simpa using hedges⟩

/-- **One step** keeps a graph traced. -/
theorem Traced.visit (hfs : fs.WellNamed) (h : Traced (frame :: rest) g)
    (hvisit : visit fs names frame g = .ok (g', next)) : Traced (next.getD [] ++ rest) g' := by
  rcases visit_cases hvisit with ⟨p, hp, rfl, rfl⟩ | ⟨p, hnone, hresolve, hcases⟩
  · exact (h.drop hp).noteConflict _
  · rcases hcases with ⟨file, hfile, rfl, rfl⟩ | ⟨tree, edges, hnew, -, -, rfl, rfl⟩
    · have hpath : file.path = p := by simpa using find?_some hfile
      exact hpath ▸ ((h.addAlias hnone (mem_of_find?_eq_some hfile)).noteConflict _)
    · -- The alias needs its file, so the file is added first.
      have hp := hfs.isProper_resolve (h.frames frame mem_cons_self) hresolve
      have hadded := (h.addFile hp hnew frame tree edges).perm perm_middle
      have hmem : newFile frame p tree edges ∈ (g.addFile frame p tree edges).1.files := by simp
      rw [addFile_addAlias]
      exact hadded.addAlias (by rw [addFile_aliases, hnone]) hmem

/-- The graph of an entry **is traced**, and nothing is left to follow. -/
theorem traced_build (hfs : fs.WellNamed) {entry : Text}
    (h : build fs names (Path.ofText entry) = .ok g) : Traced [] g := by
  refine explore_induction (fun _ _ _ _ _ htraced hvisit ↦ htraced.visit hfs hvisit) _ ?_ h
  have hentry := Path.isProper_absolute hfs.isProper_here entry
  exact ⟨by simpa using hentry, by simp, by simp, by simp, by simp⟩

/-- In a traced graph every internal edge **leads to a file**. -/
theorem Traced.exists_dependency (h : Traced [] g) {file : SourceFile} (hfile : file ∈ g.files)
    {e : Edge} (he : e ∈ file.internalEdges) :
    ∃ target ∈ g.files, g.dependency file e.specifier = some target := by
  rcases h.edges file hfile e he with ⟨p, hp⟩ | ⟨frame, hframe, -⟩
  · obtain ⟨owner, howner, hpath⟩ := h.aliases _ (mem_of_lookup hp)
    obtain ⟨found, hmem, hfound, -⟩ := exists_file? howner
    refine ⟨found, hmem, ?_⟩
    rw [dependency, lookup, hp, getD_some, ← hfound, hpath]
  · simp at hframe

end Graph

end ScriptTree
