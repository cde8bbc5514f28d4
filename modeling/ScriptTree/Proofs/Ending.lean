import ScriptTree.Proofs.Discovery
import ScriptTree.Proofs.FileTree

/-!
# Exploring ends

Exploring takes references from a stack until none is left. A file that is new puts its own
references on the stack, so the stack may grow; but each path is resolved once, each file is loaded
once, and only so many paths lead to files. `Graph.Runs` is the loop as it stands, without a bound
on its turns, together with a record of the references that were taken and of the files that were
loaded. Exploring with a bounded number of files runs this loop to its end.

The number of references is not bounded in advance, and neither is the number of paths by which a
file is referred to. What is bounded is the number of proper paths that lead to files: a path
through links may be longer than any location, but between two links it goes down, every name on it
is the name of an entry, and only so many links are followed.

## Main results

* `FileSystem.length_le_fileBound`: only so many proper paths lead to files.
* `Graph.build_runs`: the loop ends, and how often it is passed through.
-/

namespace ScriptTree

open List

/-! ### Lists of names -/

/-- The lists of **at most so many** names from an alphabet. -/
def wordsWithin (alphabet : List Text) : Nat → List (List Text)
  | 0 => [[]]
  | n + 1 => [] :: alphabet.flatMap fun name ↦ (wordsWithin alphabet n).map (name :: ·)

theorem mem_wordsWithin {alphabet names : List Text} {n : Nat} (hlength : names.length ≤ n)
    (hnames : ∀ name ∈ names, name ∈ alphabet) : names ∈ wordsWithin alphabet n := by
  induction names generalizing n with
  | nil => cases n <;> simp [wordsWithin]
  | cons name names ih =>
    cases n with
    | zero => simp at hlength
    | succ n =>
      refine mem_cons_of_mem _ (mem_flatMap.2 ⟨name, hnames name mem_cons_self, ?_⟩)
      exact mem_map_of_mem (ih (Nat.le_of_succ_le_succ hlength)
        fun other hother ↦ hnames other (mem_cons_of_mem _ hother))

theorem length_wordsWithin_le (alphabet : List Text) (n : Nat) :
    (wordsWithin alphabet n).length ≤ (alphabet.length + 1) ^ n := by
  induction n with
  | zero => simp [wordsWithin]
  | succ n ih =>
    have hone : 1 ≤ (alphabet.length + 1) ^ n := Nat.one_le_pow _ _ (Nat.succ_pos _)
    calc (wordsWithin alphabet (n + 1)).length
        = alphabet.length * (wordsWithin alphabet n).length + 1 := by
          simp [wordsWithin]
      _ ≤ alphabet.length * (alphabet.length + 1) ^ n + (alphabet.length + 1) ^ n :=
          Nat.add_le_add (Nat.mul_le_mul_left _ ih) hone
      _ = (alphabet.length + 1) ^ (n + 1) := by ring

/-! ### Paths that lead to files -/

namespace FileSystem

variable {fs : FileSystem} {l d : Location} {e : Entry} {p : Path} {names : List Text}
  {bound : Nat}

/-- The **names of entries**. -/
def entryNames (fs : FileSystem) : List Text := fs.entries.filterMap (·.1.getLast?)

theorem length_entryNames_le (fs : FileSystem) : fs.entryNames.length ≤ fs.entries.length :=
  length_filterMap_le _ _

theorem mem_entryNames {name : Text} (h : fs.entry? (l ++ [name]) = some e) :
    name ∈ fs.entryNames := by
  rw [entry?_of_ne_nil (by simp)] at h
  exact mem_filterMap.2 ⟨_, mem_of_lookup h, by simp⟩

/-- No location with an entry is **longer** than the depth. -/
theorem length_le_depth (h : fs.entry? l = some e) : l.length ≤ fs.depth := by
  -- The depth is a maximum: it is never below what it starts from, nor below any length.
  have hstart : ∀ (entries : List (Location × Entry)) (start : Nat),
      start ≤ entries.foldl (fun d e ↦ max d e.1.length) start := by
    intro entries
    induction entries with
    | nil => exact fun _ ↦ le_rfl
    | cons item entries ih => exact fun start ↦ (le_max_left _ _).trans (ih _)
  have hmem : ∀ (entries : List (Location × Entry)) (start : Nat), ∀ item ∈ entries,
      item.1.length ≤ entries.foldl (fun d e ↦ max d e.1.length) start := by
    intro entries
    induction entries with
    | nil => simp
    | cons first entries ih =>
      intro start item hitem
      rcases mem_cons.1 hitem with rfl | hitem
      · exact (le_max_right _ _).trans (hstart entries _)
      · exact ih _ item hitem
  by_cases hl : l = []
  · simp [hl]
  · rw [entry?_of_ne_nil hl] at h
    exact hmem fs.entries 0 _ (mem_of_lookup h)

/-- Names of entries, **at most so many** of them. -/
def Spells (fs : FileSystem) (bound : Nat) (names : List Text) : Prop :=
  names.length ≤ bound ∧ ∀ name ∈ names, name ∈ fs.entryNames

theorem Spells.mono {bound' : Nat} (h : fs.Spells bound names) (hle : bound ≤ bound') :
    fs.Spells bound' names :=
  ⟨h.1.trans hle, h.2⟩

theorem Spells.cons {name : Text} (h : fs.Spells bound names) (hname : name ∈ fs.entryNames) :
    fs.Spells (bound + 1) (name :: names) :=
  ⟨Nat.succ_le_succ h.1, forall_mem_cons.2 ⟨hname, h.2⟩⟩

section Descend

variable {onLink : Location → List Text → Except OsCause Location}

/-- A descent goes **down** until it meets a link, and no further down than there are entries. -/
theorem spells_of_descend (hup : Path.up ∉ names)
    (honLink : ∀ d before names, Path.up ∉ names → onLink d (before ++ names) = .ok l →
      fs.Spells bound names)
    (h : fs.descend true onLink d names = .ok l) :
    fs.Spells (bound + (fs.depth - d.length)) names := by
  induction names generalizing d with
  | nil => exact ⟨Nat.zero_le _, by simp⟩
  | cons name names ih =>
    have hup' : Path.up ∉ names := fun hmem ↦ hup (mem_cons_of_mem _ hmem)
    obtain ⟨hd, rfl | ⟨hname, ⟨target, hnext⟩ | ⟨e, hnext, he⟩⟩⟩ := descend_cases h
    · exact absurd mem_cons_self hup
    · rw [descend_link hd hname hnext, if_neg (by simp)] at h
      have hdepth := length_le_depth hnext
      rw [length_append, length_singleton] at hdepth
      exact ((honLink _ _ _ hup' h).cons (mem_entryNames hnext)).mono (by omega)
    · rw [descend_entry hd hname hnext he] at h
      have hdepth := length_le_depth hnext
      have hrest := (ih hup' h).cons (mem_entryNames hnext)
      rw [length_append, length_singleton] at hdepth hrest
      exact hrest.mono (by omega)

/-- What comes **after** other names, as the target of a link has, is no longer for that. -/
theorem spells_of_descend_append {before : List Text} (hup : Path.up ∉ names)
    (honLink : ∀ d before names, Path.up ∉ names → onLink d (before ++ names) = .ok l →
      fs.Spells bound names)
    (h : fs.descend true onLink d (before ++ names) = .ok l) :
    fs.Spells (bound + fs.depth) names := by
  induction before generalizing d with
  | nil => exact (spells_of_descend hup honLink h).mono (by omega)
  | cons first before ih =>
    rw [cons_append] at h
    obtain ⟨hd, rfl | ⟨hfirst, ⟨target, hnext⟩ | ⟨e, hnext, he⟩⟩⟩ := descend_cases h
    · rw [descend_up hd] at h
      exact ih h
    · rw [descend_link hd hfirst hnext, if_neg (by simp), ← append_assoc] at h
      exact (honLink _ _ _ hup h).mono (by omega)
    · rw [descend_entry hd hfirst hnext he] at h
      exact ih h

end Descend

theorem spells_of_locateFrom {links : Nat} {before : List Text} (hup : Path.up ∉ names)
    (h : fs.locateFrom true links d (before ++ names) = .ok l) :
    fs.Spells ((links + 1) * fs.depth) names := by
  induction links generalizing d before names with
  | zero =>
    rw [locateFrom_eq] at h
    have hspells : fs.Spells (0 + fs.depth) names :=
      spells_of_descend_append hup (fun _ _ _ _ h ↦ absurd h followLink_zero_ne) h
    exact hspells.mono (by omega)
  | succ links ih =>
    have hspells := spells_of_descend_append hup (fun _ _ _ hup h ↦ ih hup h) h
    exact hspells.mono (by rw [Nat.succ_mul (links + 1)])

/-- The proper paths that **may** lead to files. -/
def pathsWithin (fs : FileSystem) : List Path :=
  [.root, .doubleRoot].flatMap fun anchor ↦
    (wordsWithin fs.entryNames ((linkLimit + 1) * (fs.depth + 1))).map (Path.mk anchor)

theorem mem_pathsWithin (hp : p.IsProper) (h : fs.isFile p = true) : p ∈ fs.pathsWithin := by
  obtain ⟨l, content, executable, hstat⟩ := isFile_iff.1 h
  have hlocate := (stat_eq_ok_iff.1 hstat).1
  have hup : Path.up ∉ p.parts := fun hmem ↦ (hp.names _ hmem).2 rfl
  rw [locate_of_isAbsolute hp.absolute, ← nil_append p.parts] at hlocate
  obtain ⟨hlength, hnames⟩ := spells_of_locateFrom hup hlocate
  refine mem_flatMap.2 ⟨p.anchor, ?_, mem_map.2 ⟨p.parts, ?_, rfl⟩⟩
  · have habsolute := hp.absolute
    unfold Path.isAbsolute at habsolute
    cases hanchor : p.anchor <;> simp_all
  · exact mem_wordsWithin (hlength.trans (Nat.mul_le_mul_left _ (Nat.le_succ _))) hnames

theorem length_pathsWithin_le (fs : FileSystem) : fs.pathsWithin.length ≤ fs.fileBound := by
  have hwords : (wordsWithin fs.entryNames ((linkLimit + 1) * (fs.depth + 1))).length
      ≤ Nat.pow (fs.entries.length + 1) ((linkLimit + 1) * (fs.depth + 1)) :=
    (length_wordsWithin_le _ _).trans
      (Nat.pow_le_pow_left (Nat.succ_le_succ fs.length_entryNames_le) _)
  simp only [pathsWithin, flatMap_cons, flatMap_nil, append_nil, length_append,
    length_map, fileBound]
  omega

/-- **Only so many** proper paths lead to files. -/
theorem length_le_fileBound {paths : List Path} (hnodup : paths.Nodup)
    (h : ∀ p ∈ paths, p.IsProper ∧ fs.isFile p = true) : paths.length ≤ fs.fileBound :=
  (hnodup.subperm fun p hp ↦ mem_pathsWithin (h p hp).1 (h p hp).2).length_le.trans
    fs.length_pathsWithin_le

end FileSystem

/-! ### The loop -/

namespace Graph

variable {fs : FileSystem} {names : MarkupNames} {frame : Frame} {stack rest taken : List Frame}
  {g g' : Graph} {loaded : List Path} {r : Except Failure Graph}

/-- The **loop** of exploring: from a stack of references and a graph it comes to an outcome, taking
references off the stack and loading files in some order.

A reference that is taken is known, cannot be resolved, meets a file of the graph, or stands for a
new file. That is loaded; if this fails, or what it depends on cannot be told, the loop ends. -/
inductive Runs (fs : FileSystem) (names : MarkupNames) :
    List Frame → Graph → List Frame → List Path → Except Failure Graph → Prop
  | done {g : Graph} : Runs fs names [] g [] [] (.ok g)
  | known {frame : Frame} {rest taken : List Frame} {g : Graph} {loaded : List Path}
    {r : Except Failure Graph} {p : Path} (hknown : g.aliases.lookup frame.rawPath = some p)
    (h : Runs fs names rest (g.noteConflict (g.lookup frame.rawPath) frame) taken loaded r) :
    Runs fs names (frame :: rest) g (frame :: taken) loaded r
  | unresolved {frame : Frame} {rest : List Frame} {g : Graph} {e : Failure}
    (hunknown : g.aliases.lookup frame.rawPath = none)
    (hresolve : fs.resolve frame.rawPath frame.hint frame.mechanism frame.specifier = .error e) :
    Runs fs names (frame :: rest) g [frame] [] (.error e)
  | met {frame : Frame} {rest taken : List Frame} {g : Graph} {loaded : List Path}
    {r : Except Failure Graph} {p : Path} {file : SourceFile}
    (hunknown : g.aliases.lookup frame.rawPath = none)
    (hresolve : fs.resolve frame.rawPath frame.hint frame.mechanism frame.specifier = .ok p)
    (hfile : g.file? p = some file)
    (h : Runs fs names rest ((g.addAlias frame.rawPath p).noteConflict (some file) frame) taken
      loaded r) :
    Runs fs names (frame :: rest) g (frame :: taken) loaded r
  | unloaded {frame : Frame} {rest : List Frame} {g : Graph} {p : Path} {e : Failure}
    (hunknown : g.aliases.lookup frame.rawPath = none)
    (hresolve : fs.resolve frame.rawPath frame.hint frame.mechanism frame.specifier = .ok p)
    (hnew : g.file? p = none) (hload : load fs names p = .error e) :
    Runs fs names (frame :: rest) g [frame] [p] (.error e)
  | untold {frame : Frame} {rest : List Frame} {g : Graph} {p : Path} {tree : SourceTree}
    {e : Failure} (hunknown : g.aliases.lookup frame.rawPath = none)
    (hresolve : fs.resolve frame.rawPath frame.hint frame.mechanism frame.specifier = .ok p)
    (hnew : g.file? p = none) (hload : load fs names p = .ok tree)
    (hedges : allDependencies tree = .error e) :
    Runs fs names (frame :: rest) g [frame] [p] (.error e)
  | new {frame : Frame} {rest taken : List Frame} {g : Graph} {loaded : List Path}
    {r : Except Failure Graph} {p : Path} {tree : SourceTree} {edges : List Edge}
    (hunknown : g.aliases.lookup frame.rawPath = none)
    (hresolve : fs.resolve frame.rawPath frame.hint frame.mechanism frame.specifier = .ok p)
    (hnew : g.file? p = none) (hload : load fs names p = .ok tree)
    (hedges : allDependencies tree = .ok edges)
    (h : Runs fs names (framesOf p frame.hint (edges.filter (!·.isBuiltin)) ++ rest)
      ((g.addAlias frame.rawPath p).addFile frame p tree edges).1 taken loaded r) :
    Runs fs names (frame :: rest) g (frame :: taken) (p :: loaded) r

/-- Where a reference **cannot be followed**, the loop ends. -/
theorem runs_of_visit_error {e : Failure} (h : visit fs names frame g = .error e)
    (rest : List Frame) : ∃ loaded, Runs fs names (frame :: rest) g [frame] loaded (.error e) := by
  unfold visit at h
  split at h
  · simp at h
  · next hnew =>
    have hunknown := Option.not_isSome_iff_eq_none.1 hnew
    cases hresolve : fs.resolve frame.rawPath frame.hint frame.mechanism frame.specifier with
    | error e' =>
      obtain rfl : e' = e := by simpa [hresolve, bind, Except.bind] using h
      exact ⟨[], .unresolved hunknown hresolve⟩
    | ok p =>
      have hfile : ({ g with aliases := g.aliases ++ [(frame.rawPath, p)] } : Graph).file? p
          = g.file? p := rfl
      cases hknown : g.file? p with
      | some file => simp [hresolve, hfile, hknown, bind, Except.bind, pure, Except.pure] at h
      | none =>
        cases hload : load fs names p with
        | error e' =>
          obtain rfl : e' = e := by
            simpa [hresolve, hfile, hknown, hload, bind, Except.bind] using h
          exact ⟨[p], .unloaded hunknown hresolve hknown hload⟩
        | ok tree =>
          cases hedges : allDependencies tree with
          | error e' =>
            obtain rfl : e' = e := by
              simpa [hresolve, hfile, hknown, hload, hedges, bind, Except.bind] using h
            exact ⟨[p], .untold hunknown hresolve hknown hload hedges⟩
          | ok edges =>
            simp [hresolve, hfile, hknown, hload, hedges, bind, Except.bind, pure,
              Except.pure] at h

/-- Where a reference **is followed**, the loop goes on with what is then on the stack. -/
theorem runs_of_visit {next : Option (List Frame)}
    (hvisit : visit fs names frame g = .ok (g', next))
    (h : Runs fs names (next.getD [] ++ rest) g' taken loaded r) :
    ∃ loaded', Runs fs names (frame :: rest) g (frame :: taken) loaded' r := by
  rcases visit_cases hvisit with ⟨p, hp, rfl, rfl⟩ | ⟨p, hunknown, hresolve, hcases⟩
  · exact ⟨loaded, .known hp h⟩
  · rcases hcases with ⟨file, hfile, rfl, rfl⟩ | ⟨tree, edges, hnew, hload, hedges, rfl, rfl⟩
    · exact ⟨loaded, .met hunknown hresolve hfile h⟩
    · exact ⟨p :: loaded, .new hunknown hresolve hnew hload hedges h⟩

/-! ### Exploring runs the loop -/

/-- A traced graph whose files **are files**. -/
structure Grounded (fs : FileSystem) (waiting : List Frame) (g : Graph) : Prop
    extends Traced waiting g where
  files : ∀ file ∈ g.files, fs.isFile file.path = true

theorem Grounded.visit {next : Option (List Frame)} (hfs : fs.WellNamed)
    (h : Grounded fs (frame :: rest) g) (hvisit : visit fs names frame g = .ok (g', next)) :
    Grounded fs (next.getD [] ++ rest) g' := by
  refine ⟨h.toTraced.visit hfs hvisit, ?_⟩
  rcases visit_cases hvisit with ⟨p, -, rfl, rfl⟩ | ⟨p, -, hresolve, hcases⟩
  · simpa using h.files
  · rcases hcases with ⟨file, -, rfl, rfl⟩ | ⟨tree, edges, -, -, -, rfl, rfl⟩
    · simpa using h.files
    · intro file hfile
      rw [addFile_files] at hfile
      rcases mem_append.1 hfile with hfile | hfile
      · exact h.files file hfile
      · rw [mem_singleton.1 hfile]
        exact FileSystem.isFile_resolve hresolve

/-- There are **no more files** than paths that lead to files. -/
theorem Grounded.length_le (h : Grounded fs stack g) : g.files.length ≤ fs.fileBound := by
  rw [← length_map (f := (·.path))]
  refine FileSystem.length_le_fileBound h.nodup fun p hp ↦ ?_
  obtain ⟨file, hfile, rfl⟩ := mem_map.1 hp
  exact ⟨h.paths file hfile, h.files file hfile⟩

/-- Only a new file puts references on the stack. -/
theorem length_files_of_visit {frames : List Frame}
    (h : visit fs names frame g = .ok (g', some frames)) :
    g'.files.length = g.files.length + 1 := by
  rcases visit_cases h with ⟨p, -, -, hnext⟩ | ⟨p, -, -, hcases⟩
  · simp at hnext
  · rcases hcases with ⟨file, -, -, hnext⟩ | ⟨tree, edges, -, -, -, rfl, -⟩
    · simp at hnext
    · simp

theorem files_of_visit_none (h : visit fs names frame g = .ok (g', none)) :
    g'.files = g.files := by
  rcases visit_cases h with ⟨p, -, rfl, -⟩ | ⟨p, -, -, hcases⟩
  · simp
  · rcases hcases with ⟨file, -, rfl, -⟩ | ⟨tree, edges, -, -, -, -, hnext⟩
    · simp
    · simp at hnext

/-- Draining the stack **runs the loop**, if what goes on at a new file does. -/
theorem exists_runs_drain (hfs : fs.WellNamed)
    {onNew : List Frame → Graph → Except Failure Graph} {least : Nat}
    (honNew : ∀ stack g, Grounded fs stack g → least < g.files.length →
      ∃ taken loaded, Runs fs names stack g taken loaded (onNew stack g)) :
    ∀ stack g, Grounded fs stack g → least ≤ g.files.length →
      ∃ taken loaded, Runs fs names stack g taken loaded (drain fs names onNew stack g) := by
  intro stack
  induction stack with
  | nil => exact fun g _ _ ↦ ⟨[], [], .done⟩
  | cons frame rest ih =>
    intro g hg hleast
    rw [drain]
    cases hvisit : Graph.visit fs names frame g with
    | error e =>
      obtain ⟨loaded, hruns⟩ := runs_of_visit_error hvisit rest
      exact ⟨[frame], loaded, hruns⟩
    | ok found =>
      obtain ⟨g₁, next⟩ := found
      have hg₁ := hg.visit hfs hvisit
      cases next with
      | none =>
        rw [← files_of_visit_none hvisit] at hleast
        obtain ⟨taken, loaded, hruns⟩ := ih g₁ hg₁ hleast
        obtain ⟨loaded', hruns'⟩ := runs_of_visit hvisit hruns
        exact ⟨frame :: taken, loaded', hruns'⟩
      | some frames =>
        have hmore : least < g₁.files.length := by
          rw [length_files_of_visit hvisit]
          omega
        obtain ⟨taken, loaded, hruns⟩ := honNew (frames ++ rest) g₁ hg₁ hmore
        obtain ⟨loaded', hruns'⟩ := runs_of_visit hvisit hruns
        exact ⟨frame :: taken, loaded', hruns'⟩

/-- **Exploring runs the loop** to its end, if as many files may be loaded as there can be. -/
theorem exists_runs_explore (hfs : fs.WellNamed) (names : MarkupNames) :
    ∀ n stack g, Grounded fs stack g → fs.fileBound ≤ n + g.files.length →
      ∃ taken loaded, Runs fs names stack g taken loaded (explore fs names n stack g) := by
  intro n
  induction n with
  | zero =>
    intro stack g hg hbound
    -- One file more would be one more than there can be.
    refine exists_runs_drain hfs (fun stack g hg hmore ↦ absurd hg.length_le ?_) stack g hg
      (Nat.zero_add _ ▸ hbound)
    omega
  | succ n ih =>
    intro stack g hg hbound
    refine exists_runs_drain hfs (fun stack g' hg' hmore ↦ ih stack g' hg' ?_) stack g hg le_rfl
    omega

/-! ### Counting -/

/-- The loop has **one way** to go. -/
theorem Runs.unique {taken' : List Frame} {loaded' : List Path} {r' : Except Failure Graph}
    (h : Runs fs names stack g taken loaded r) (h' : Runs fs names stack g taken' loaded' r') :
    taken = taken' ∧ loaded = loaded' ∧ r = r' := by
  induction h generalizing taken' loaded' r' with
  | done =>
    cases h'
    exact ⟨rfl, rfl, rfl⟩
  | known hknown h ih =>
    cases h' with
    | known _ h' =>
      obtain ⟨rfl, rfl, rfl⟩ := ih h'
      exact ⟨rfl, rfl, rfl⟩
    | _ => simp_all
  | unresolved hunknown hresolve => cases h' <;> simp_all
  | met hunknown hresolve hfile h ih =>
    cases h' with
    | met _ hresolve' hfile' h' =>
      obtain rfl := Except.ok.inj (hresolve.symm.trans hresolve')
      obtain rfl := Option.some.inj (hfile.symm.trans hfile')
      obtain ⟨rfl, rfl, rfl⟩ := ih h'
      exact ⟨rfl, rfl, rfl⟩
    | _ => simp_all
  | unloaded hunknown hresolve hnew hload => cases h' <;> simp_all
  | untold hunknown hresolve hnew hload hedges => cases h' <;> simp_all
  | new hunknown hresolve hnew hload hedges h ih =>
    cases h' with
    | new _ hresolve' _ hload' hedges' h' =>
      obtain rfl := Except.ok.inj (hresolve.symm.trans hresolve')
      obtain rfl := Except.ok.inj (hload.symm.trans hload')
      obtain rfl := Except.ok.inj (hedges.symm.trans hedges')
      obtain ⟨rfl, rfl, rfl⟩ := ih h'
      exact ⟨rfl, rfl, rfl⟩
    | _ => simp_all

/-- The number of **internal edges** of all files, each as often as it occurs. -/
def edgeCount (g : Graph) : Nat := (g.files.map fun file ↦ file.internalEdges.length).sum

@[simp] theorem edgeCount_noteConflict (known : Option SourceFile) :
    (g.noteConflict known frame).edgeCount = g.edgeCount := by
  simp [edgeCount]

@[simp] theorem edgeCount_addAlias (raw p : Path) :
    (g.addAlias raw p).edgeCount = g.edgeCount := rfl

theorem edgeCount_addFile (frame : Frame) (p : Path) (tree : SourceTree) (all : List Edge) :
    (g.addFile frame p tree all).1.edgeCount
      = g.edgeCount + (framesOf p frame.hint (all.filter (!·.isBuiltin))).length := by
  simp [edgeCount, framesOf, newFile, SourceFile.internalEdges]

/-- Every reference that is put on the stack is **taken off** again. -/
theorem Runs.length_taken (h : Runs fs names stack g taken loaded (.ok g')) :
    taken.length + g.edgeCount = stack.length + g'.edgeCount := by
  generalize hr : (Except.ok g' : Except Failure Graph) = r at h
  induction h with
  | done =>
    cases hr
    rfl
  | known hknown h ih =>
    have hrest := ih hr
    rw [edgeCount_noteConflict] at hrest
    rw [length_cons, length_cons]
    omega
  | met hunknown hresolve hfile h ih =>
    have hrest := ih hr
    rw [edgeCount_noteConflict, edgeCount_addAlias] at hrest
    rw [length_cons, length_cons]
    omega
  | new hunknown hresolve hnew hload hedges h ih =>
    have hrest := ih hr
    rw [edgeCount_addFile, edgeCount_addAlias, length_append] at hrest
    rw [length_cons, length_cons]
    omega
  | unresolved hunknown hresolve => simp at hr
  | unloaded hunknown hresolve hnew hload => simp at hr
  | untold hunknown hresolve hnew hload hedges => simp at hr

/-- The files that were **loaded** are those that were added, in order. -/
theorem Runs.paths_eq (h : Runs fs names stack g taken loaded (.ok g')) :
    g'.files.map (·.path) = g.files.map (·.path) ++ loaded := by
  generalize hr : (Except.ok g' : Except Failure Graph) = r at h
  induction h with
  | done =>
    cases hr
    simp
  | known hknown h ih => simpa using ih hr
  | met hunknown hresolve hfile h ih => simpa using ih hr
  | new hunknown hresolve hnew hload hedges h ih => simpa [newFile] using ih hr
  | unresolved hunknown hresolve => simp at hr
  | unloaded hunknown hresolve hnew hload => simp at hr
  | untold hunknown hresolve hnew hload hedges => simp at hr

/-- **Exploring ends.** The loop runs from an entry to the outcome of exploring, and to no other.
Where that is a graph, one reference was taken for the entry and one for each internal edge of a
file, and each file was loaded once. -/
theorem build_runs (hfs : fs.WellNamed) (names : MarkupNames) (entry : Text) :
    ∃ taken loaded,
      Runs fs names [.entryAt (Path.absolute fs.here (Path.ofText entry))] {} taken loaded
        (build fs names (Path.ofText entry)) ∧
      (∀ taken' loaded' r,
        Runs fs names [.entryAt (Path.absolute fs.here (Path.ofText entry))] {} taken' loaded' r →
          taken' = taken ∧ loaded' = loaded ∧ r = build fs names (Path.ofText entry)) ∧
      ∀ g, build fs names (Path.ofText entry) = .ok g →
        taken.length = 1 + g.edgeCount ∧ loaded = g.files.map (·.path) ∧ loaded.Nodup := by
  have hentry := Path.isProper_absolute hfs.isProper_here entry
  have hstart : Grounded fs [.entryAt (Path.absolute fs.here (Path.ofText entry))] {} :=
    ⟨⟨by simpa [Frame.entryAt] using hentry, by simp, by simp, by simp, by simp⟩, by simp⟩
  have hbuild : build fs names (Path.ofText entry)
      = explore fs names fs.fileBound
          [.entryAt (Path.absolute fs.here (Path.ofText entry))] {} := rfl
  obtain ⟨taken, loaded, hruns⟩ :=
    exists_runs_explore hfs names fs.fileBound _ _ hstart (Nat.le_add_right _ _)
  rw [← hbuild] at hruns
  refine ⟨taken, loaded, hruns, fun taken' loaded' r h ↦ h.unique hruns, fun g hg ↦ ?_⟩
  rw [hg] at hruns
  have hloaded : g.files.map (·.path) = loaded := hruns.paths_eq
  refine ⟨hruns.length_taken, hloaded.symm, ?_⟩
  rw [← hloaded]
  exact (traced_build hfs hg).nodup

/-- The four files of the graph of `tangled` have **five internal edges**, and two of these meet a
file that is there already. -/
theorem runs_tangled : tangled.WellNamed ∧
    ∃ g taken loaded, build tangled {} (Path.ofText "main.js") = .ok g ∧
      Runs tangled {} [.entryAt (Path.absolute tangled.here (Path.ofText "main.js"))] {} taken
        loaded (.ok g) ∧
      taken.length = 6 ∧
      loaded = [⟨.root, ["main.js"]⟩, ⟨.root, ["b.js"]⟩, ⟨.root, ["x.js"]⟩, ⟨.root, ["a.ts"]⟩] := by
  have hfs : tangled.WellNamed := ⟨by decide, by decide⟩
  obtain ⟨g, hg, h⟩ := exists_of_succeedsWith
    (x := build tangled {} (Path.ofText "main.js"))
    (p := fun g : Graph ↦ decide (g.edgeCount = 5) && decide (g.files.map (·.path)
      = [⟨.root, ["main.js"]⟩, ⟨.root, ["b.js"]⟩, ⟨.root, ["x.js"]⟩, ⟨.root, ["a.ts"]⟩]))
    (by decide +kernel)
  simp only [Bool.and_eq_true, decide_eq_true_eq] at h
  obtain ⟨taken, loaded, hruns, -, hcounts⟩ := build_runs hfs {} "main.js"
  obtain ⟨htaken, hloaded, -⟩ := hcounts g hg
  rw [hg] at hruns
  exact ⟨hfs, g, taken, loaded, hg, hruns, by rw [htaken, h.1], by rw [hloaded, h.2]⟩

end Graph

end ScriptTree
