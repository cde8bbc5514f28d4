import ScriptTree.Proofs.Explore
import ScriptTree.Proofs.Sites

/-!
# How a graph is found

Exploring follows references in some order, the entry first. Each reference is followed once: it
leads to the file that its path already stands for, or its path is resolved, and then it may find a
file. `Graph.Followed` ties the graph so far to the references that were followed to get there. One
step keeps it, and in the end every reference of the graph has been followed.

From this it follows that a graph is closed, that its conflicts are exactly its mismatches, and
which reference has decided what a path stands for.

## Main results

* `Graph.exists_followed`: the order in which the references of a graph were followed.
* `Graph.isClosed_build`: the graph of an entry is closed.
* `Graph.conflicts_perm_mismatches`: its conflicts are its mismatches.
* `Graph.resolved_by_first`: a path stands for what its first reference makes of it.
-/

namespace ScriptTree

open List Option
variable {fs : FileSystem} {names : MarkupNames}

/-! ### References -/

namespace SourceFile

/-- The **reference** that an edge of a file makes. -/
def reference (file : SourceFile) (e : Edge) : Frame :=
  let raw := dependencyPath file.directory e.specifier
  { rawPath := raw
    hint := if raw.suffix.isEmpty then file.hint else raw.suffix
    mechanism := e.mechanism
    specifier := some e.specifier
    referrer := some file.path }

/-- The references of a file, in the order of its edges. -/
def references (file : SourceFile) : List Frame := file.internalEdges.map file.reference

/-- The **mismatch** between an edge of a file and the file that it leads to, if there is one. -/
def mismatch? (file : SourceFile) (e : Edge) (target : SourceFile) : Option Conflict :=
  if Format.forMechanism e.mechanism = target.format then none
  else some ⟨target.path, target.format, e.mechanism, some file.path, some e.specifier⟩

end SourceFile

/-- The reference to an **entry**. -/
def Frame.entryAt (p : Path) : Frame := { rawPath := p, hint := p.suffix, mechanism := .entry }

/-- The **conflict** between a reference and the file that it leads to, if there is one. -/
def Frame.conflict? (frame : Frame) (file : SourceFile) : Option Conflict :=
  if frame.mechanism = .entry ∨ Format.forMechanism frame.mechanism = file.format then none
  else some ⟨file.path, file.format, frame.mechanism, frame.referrer, frame.specifier⟩

/-- Who asks and in which words does not matter for what a path **stands for**. -/
theorem FileSystem.resolve_congr {candidate p : Path} {hint : Text} {mechanism : Mechanism}
    {specifier : Option Text} (h : fs.resolve candidate hint mechanism specifier = .ok p)
    (mechanism' : Mechanism) (specifier' : Option Text) :
    fs.resolve candidate hint mechanism' specifier' = .ok p := by
  unfold resolve at h ⊢
  by_cases hfile : fs.isFile candidate = true
  · simpa only [hfile, if_true] using h
  cases hdefect : pathDefect? candidate.parent with
  | some defect => simp [hfile, hdefect, bind_eq_ok_iff] at h
  | none =>
    cases hlist : fs.list candidate.parent with
    | error e =>
      simp only [hfile, hdefect, hlist, Bool.false_eq_true, if_false] at h
      split at h <;> simp at h
    | ok names =>
      simp only [hfile, hdefect, hlist, Bool.false_eq_true, if_false] at h ⊢
      split_ifs at h ⊢
      all_goals
        obtain ⟨indices, hindices, h⟩ := bind_eq_ok_iff.1 h
        refine bind_eq_ok_iff.2 ⟨indices, hindices, ?_⟩
        split at h
        · exact h
        · simp at h

namespace Graph

variable {g g' : Graph} {frame start : Frame} {done waiting rest : List Frame}

/-- All **references** of a graph. -/
def references (g : Graph) : List Frame := g.files.flatMap (·.references)

theorem framesOf_eq (frame : Frame) (p : Path) (tree : SourceTree) (all : List Edge) :
    framesOf p frame.hint (all.filter (!·.isBuiltin))
      = (newFile frame p tree all).references.reverse := rfl

/-! ### Growing graphs -/

/-- A graph **extends** another one: what is known stays as it is. -/
structure Extends (g' g : Graph) : Prop where
  aliases : ∀ {raw p : Path}, g.aliases.lookup raw = some p → g'.aliases.lookup raw = some p
  files : g.files <+: g'.files
  trees : ∀ {raw : Path} {tree : SourceTree}, g.trees.lookup raw = some tree →
    g'.trees.lookup raw = some tree

theorem Extends.trans {g'' : Graph} (h : g''.Extends g') (h' : g'.Extends g) : g''.Extends g :=
  ⟨fun hp ↦ h.aliases (h'.aliases hp), h'.files.trans h.files, fun ht ↦ h.trees (h'.trees ht)⟩

@[simp] theorem addAlias_files (raw p : Path) : (g.addAlias raw p).files = g.files := rfl

@[simp] theorem addAlias_trees (raw p : Path) : (g.addAlias raw p).trees = g.trees := rfl

@[simp] theorem addAlias_conflicts (raw p : Path) :
    (g.addAlias raw p).conflicts = g.conflicts := rfl

@[simp] theorem addAlias_entry (raw p : Path) : (g.addAlias raw p).entry = g.entry := rfl

@[simp] theorem noteConflict_trees (known : Option SourceFile) :
    (g.noteConflict known frame).trees = g.trees := by
  unfold noteConflict
  split
  · rfl
  · split <;> rfl

@[simp] theorem noteConflict_entry (known : Option SourceFile) :
    (g.noteConflict known frame).entry = g.entry := by
  unfold noteConflict
  split
  · rfl
  · split <;> rfl

@[simp] theorem noteConflict_conflicts (known : Option SourceFile) :
    (g.noteConflict known frame).conflicts
      = g.conflicts ++ (known.bind frame.conflict?).toList := by
  cases known with
  | none => simp [noteConflict]
  | some file =>
    simp only [noteConflict, bind_some, Frame.conflict?]
    split <;> simp

@[simp] theorem addFile_trees (p : Path) (tree : SourceTree) (all : List Edge) :
    (g.addFile frame p tree all).1.trees = g.trees ++ [(frame.rawPath, tree)] := by
  unfold addFile
  split <;> rfl

@[simp] theorem addFile_conflicts (p : Path) (tree : SourceTree) (all : List Edge) :
    (g.addFile frame p tree all).1.conflicts = g.conflicts := by
  unfold addFile
  split <;> rfl

@[simp] theorem addFile_entry (p : Path) (tree : SourceTree) (all : List Edge) :
    (g.addFile frame p tree all).1.entry
      = if frame.mechanism = .entry then some p else g.entry := by
  unfold addFile
  split <;> rfl

theorem extends_noteConflict (known : Option SourceFile) :
    (g.noteConflict known frame).Extends g :=
  ⟨by simp, by simp, by simp⟩

theorem extends_addAlias (raw p : Path) : (g.addAlias raw p).Extends g :=
  ⟨fun h ↦ by simp [addAlias, lookup_append, h], prefix_rfl, fun h ↦ h⟩

theorem extends_addFile (frame : Frame) (p : Path) (tree : SourceTree) (all : List Edge) :
    (g.addFile frame p tree all).1.Extends g :=
  ⟨by simp, by simp, fun h ↦ by simp [lookup_append, h]⟩

theorem lookup_addAlias_self {raw : Path} (p : Path) (h : g.aliases.lookup raw = none) :
    (g.addAlias raw p).aliases.lookup raw = some p := by
  simp [addAlias, lookup_append, h]

theorem lookup_addAlias_of_ne {raw other : Path} (p : Path) (h : other ≠ raw) :
    (g.addAlias raw p).aliases.lookup other = g.aliases.lookup other := by
  have : (other == raw) = false := by simpa using h
  simp [addAlias, lookup_append, this]

/-- The file at a path stays **where it is**. -/
theorem Extends.file? (h : g'.Extends g) {p : Path} {file : SourceFile}
    (hfile : g.file? p = some file) : g'.file? p = some file :=
  h.files.find?_eq_some hfile

theorem lookup_eq_some {raw p : Path} {file : SourceFile} (hp : g.aliases.lookup raw = some p)
    (hfile : g.file? p = some file) : g.lookup raw = some file := by
  rw [lookup, hp, getD_some, hfile]

/-! ### The references that were followed -/

/-- A reference **finds** a file: its path stands for the file, which was loaded from there and
tells what the reference knew. -/
def Finds (fs : FileSystem) (names : MarkupNames) (g : Graph) (frame : Frame) (file : SourceFile) :
    Prop :=
  ∃ tree all, file = newFile frame file.path tree all ∧
    g.aliases.lookup frame.rawPath = some file.path ∧ g.trees.lookup frame.rawPath = some tree ∧
    load fs names file.path = .ok tree ∧ allDependencies tree = .ok all

theorem Finds.of_extends {file : SourceFile} (h : Finds fs names g frame file)
    (hext : g'.Extends g) : Finds fs names g' frame file := by
  obtain ⟨tree, all, hfile, halias, htree, hload, hall⟩ := h
  exact ⟨tree, all, hfile, hext.aliases halias, hext.trees htree, hload, hall⟩

/-- A graph and the references that were **followed** to get there from a first one, in order, while
others wait. -/
structure Followed (fs : FileSystem) (names : MarkupNames) (start : Frame)
    (done waiting : List Frame) (g : Graph) : Prop where
  perm : (done ++ waiting).Perm (start :: g.references)
  head : done = [] ∨ done.head? = some start
  leads : ∀ f ∈ done, ∃ p file, g.aliases.lookup f.rawPath = some p ∧ g.file? p = some file
  resolved : ∀ raw p, g.aliases.lookup raw = some p → ∃ f,
    done.find? (·.rawPath = raw) = some f ∧ fs.resolve raw f.hint f.mechanism f.specifier = .ok p
  paths : (g.files.map (·.path)).Nodup
  found : ∀ file ∈ g.files, ∃ f ∈ done, Finds fs names g f file
  trees : g.trees.map (·.1) = g.files.map (·.rawPath)
  conflicts : g.conflicts = done.filterMap fun f ↦ (g.lookup f.rawPath).bind f.conflict?
  entry : done = [] ∨ ∃ file ∈ g.files, file.mechanism = .entry ∧ g.entry = some file.path

theorem followed_nil (fs : FileSystem) (names : MarkupNames) (start : Frame) :
    Followed fs names start [] [start] {} :=
  ⟨.refl _, .inl rfl, by simp, by simp, by simp, by simp, rfl, rfl, .inl rfl⟩

/-- The **first** reference is the one to start with. -/
theorem Followed.eq_start (h : Followed fs names start [] (frame :: rest) g) : frame = start := by
  have hfiles : g.files = [] := eq_nil_iff_forall_not_mem.2 fun file hfile ↦ by
    obtain ⟨f, hf, -⟩ := h.found file hfile
    simp at hf
  have hperm := h.perm
  rw [references, hfiles] at hperm
  have := perm_singleton.1 hperm
  simp only [nil_append, List.cons.injEq] at this
  exact this.1

theorem Followed.head_append (h : Followed fs names start done (frame :: rest) g) :
    (done ++ [frame]).head? = some start := by
  cases done with
  | nil => rw [h.eq_start]; rfl
  | cons first others => simpa using h.head

/-- What followed references lead to **stays** the same. -/
theorem Followed.lookup_eq (h : Followed fs names start done waiting g) (hext : g'.Extends g)
    {f : Frame} (hf : f ∈ done) : g'.lookup f.rawPath = g.lookup f.rawPath := by
  obtain ⟨p, file, hp, hfile⟩ := h.leads f hf
  rw [lookup_eq_some hp hfile, lookup_eq_some (hext.aliases hp) (hext.file? hfile)]

theorem Followed.leads_of_extends (h : Followed fs names start done waiting g)
    (hext : g'.Extends g) {f : Frame} (hf : f ∈ done) :
    ∃ p file, g'.aliases.lookup f.rawPath = some p ∧ g'.file? p = some file := by
  obtain ⟨p, file, hp, hfile⟩ := h.leads f hf
  exact ⟨p, file, hext.aliases hp, hext.file? hfile⟩

theorem Followed.conflicts_append (h : Followed fs names start done waiting g)
    (hext : g'.Extends g) :
    (done ++ [frame]).filterMap (fun f ↦ (g'.lookup f.rawPath).bind f.conflict?)
      = g.conflicts ++ ((g'.lookup frame.rawPath).bind frame.conflict?).toList := by
  rw [filterMap_append, h.conflicts]
  congr 1
  exact filterMap_congr fun f hf ↦ by rw [h.lookup_eq hext hf]

/-- What a **new** alias stands for was asked by the reference that is followed now. -/
theorem Followed.resolved_addAlias (h : Followed fs names start done waiting g) {p : Path}
    (hnone : g.aliases.lookup frame.rawPath = none)
    (hp : fs.resolve frame.rawPath frame.hint frame.mechanism frame.specifier = .ok p)
    {raw q : Path} (hq : (g.addAlias frame.rawPath p).aliases.lookup raw = some q) :
    ∃ f, (done ++ [frame]).find? (·.rawPath = raw) = some f ∧
      fs.resolve raw f.hint f.mechanism f.specifier = .ok q := by
  by_cases hraw : raw = frame.rawPath
  · subst hraw
    obtain rfl : p = q := by
      rw [lookup_addAlias_self p hnone] at hq
      exact Option.some.inj hq
    -- A reference with this path was not followed before, or the path would be known.
    have hnew : done.find? (·.rawPath = frame.rawPath) = none := by
      refine find?_eq_none.2 fun f hf hraw ↦ ?_
      obtain ⟨p, -, hp, -⟩ := h.leads f hf
      rw [of_decide_eq_true hraw, hnone] at hp
      cases hp
    exact ⟨frame, by simp [hnew], hp⟩
  · rw [lookup_addAlias_of_ne p hraw] at hq
    obtain ⟨f, hf, hresolve⟩ := h.resolved raw q hq
    exact ⟨f, by simp [hf], hresolve⟩

/-- Once there is a file, there is the file of the **entry**. -/
theorem Followed.exists_entry (h : Followed fs names start done waiting g) {file : SourceFile}
    (hfile : file ∈ g.files) :
    ∃ file ∈ g.files, file.mechanism = .entry ∧ g.entry = some file.path := by
  rcases h.entry with rfl | hentry
  · obtain ⟨f, hf, -⟩ := h.found file hfile
    simp at hf
  · exact hentry

/-- What a known path **leads to**. -/
theorem Followed.exists_file? (h : Followed fs names start done waiting g) {raw p : Path}
    (hp : g.aliases.lookup raw = some p) : ∃ file, g.file? p = some file := by
  obtain ⟨f, hf, -⟩ := h.resolved raw p hp
  obtain ⟨q, file, hq, hfile⟩ := h.leads f (mem_of_find?_eq_some hf)
  have hraw : f.rawPath = raw := by simpa using find?_some hf
  rw [hraw, hp] at hq
  exact ⟨file, Option.some.inj hq ▸ hfile⟩

/-! ### One reference -/

/-- What is left to show of a graph that **extends** another one by following a reference. -/
theorem Followed.step (h : Followed fs names start done (frame :: rest) g) (next : List Frame)
    (hext : g'.Extends g) (hreferences : g'.references.Perm (next ++ g.references))
    (hleads : ∃ p file, g'.aliases.lookup frame.rawPath = some p ∧ g'.file? p = some file)
    (hresolved : ∀ raw p, g'.aliases.lookup raw = some p → ∃ f,
      (done ++ [frame]).find? (·.rawPath = raw) = some f ∧
        fs.resolve raw f.hint f.mechanism f.specifier = .ok p)
    (hpaths : (g'.files.map (·.path)).Nodup)
    (hfound : ∀ file ∈ g'.files, file ∈ g.files ∨ Finds fs names g' frame file)
    (htrees : g'.trees.map (·.1) = g'.files.map (·.rawPath))
    (hconflicts : g'.conflicts
      = g.conflicts ++ ((g'.lookup frame.rawPath).bind frame.conflict?).toList)
    (hentry : ∃ file ∈ g'.files, file.mechanism = .entry ∧ g'.entry = some file.path) :
    Followed fs names start (done ++ [frame]) (next ++ rest) g' := by
  refine ⟨?_, .inr h.head_append, fun f hf ↦ ?_, hresolved, hpaths, fun file hfile ↦ ?_, htrees, ?_,
    .inr hentry⟩
  · calc done ++ [frame] ++ (next ++ rest)
        |>.Perm (next ++ (done ++ frame :: rest)) := by
          rw [append_assoc, singleton_append]
          exact (perm_middle.symm.append_left done).trans
            (perm_append_comm_assoc done next _)
      _ |>.Perm (next ++ start :: g.references) := h.perm.append_left next
      _ |>.Perm (start :: g'.references) := perm_middle.trans (hreferences.symm.cons start)
  · rcases mem_append.1 hf with hf | hf
    · exact h.leads_of_extends hext hf
    · exact mem_singleton.1 hf ▸ hleads
  · rcases hfound file hfile with hfile | hfile
    · obtain ⟨f, hf, hfinds⟩ := h.found file hfile
      exact ⟨f, mem_append_left _ hf, hfinds.of_extends hext⟩
    · exact ⟨frame, by simp, hfile⟩
  · rw [hconflicts, h.conflicts_append hext]

/-- A reference to a **known path**. -/
theorem Followed.known (h : Followed fs names start done (frame :: rest) g) {p : Path}
    (hp : g.aliases.lookup frame.rawPath = some p) :
    Followed fs names start (done ++ [frame]) rest
      (g.noteConflict (g.lookup frame.rawPath) frame) := by
  obtain ⟨file, hfile⟩ := h.exists_file? hp
  have hlookup (known : Option SourceFile) (raw : Path) :
      (g.noteConflict known frame).lookup raw = g.lookup raw := by
    simp [lookup, Graph.file?]
  refine h.step [] (extends_noteConflict _) ?_ ⟨p, file, ?_, ?_⟩ (fun raw q hq ↦ ?_) ?_
    (fun file hfile ↦ ?_) ?_ ?_ ?_
  · simp [references]
  · simpa using hp
  · simpa [Graph.file?] using hfile
  · obtain ⟨f, hf, hresolve⟩ := h.resolved raw q (by simpa using hq)
    exact ⟨f, by simp [find?_append, hf], hresolve⟩
  · simpa using h.paths
  · exact .inl (by simpa using hfile)
  · simpa using h.trees
  · rw [noteConflict_conflicts, hlookup]
  · simpa using h.exists_entry (mem_of_find?_eq_some hfile)

/-- A reference to a **known file** by a new path. -/
theorem Followed.alias (h : Followed fs names start done (frame :: rest) g) {p : Path}
    (hnone : g.aliases.lookup frame.rawPath = none)
    (hp : fs.resolve frame.rawPath frame.hint frame.mechanism frame.specifier = .ok p)
    {file : SourceFile} (hfile : g.file? p = some file) :
    Followed fs names start (done ++ [frame]) rest
      ((g.addAlias frame.rawPath p).noteConflict (some file) frame) := by
  have hself := lookup_addAlias_self p hnone
  have hlookup : ((g.addAlias frame.rawPath p).noteConflict (some file) frame).lookup frame.rawPath
      = some file := lookup_eq_some (by simpa using hself) (by simpa [Graph.file?] using hfile)
  refine h.step [] ((extends_noteConflict _).trans (extends_addAlias _ _)) ?_
    ⟨p, file, ?_, ?_⟩ (fun raw q hq ↦ ?_) ?_ (fun file hfile ↦ ?_) ?_ ?_ ?_
  · simp [references]
  · simpa using hself
  · simpa [Graph.file?] using hfile
  · exact h.resolved_addAlias hnone hp (by simpa using hq)
  · simpa using h.paths
  · exact .inl (by simpa using hfile)
  · simpa using h.trees
  · rw [noteConflict_conflicts, hlookup]
    rfl
  · simpa using h.exists_entry (mem_of_find?_eq_some hfile)

/-- A file agrees with the reference that **found** it. -/
theorem conflict?_newFile (frame : Frame) (p : Path) (tree : SourceTree) (all : List Edge) :
    frame.conflict? (newFile frame p tree all) = none := by
  unfold Frame.conflict? newFile chooseFormat
  by_cases hentry : frame.mechanism = .entry <;> simp [hentry]

/-- A reference to a **new file**. -/
theorem Followed.new (h : Followed fs names start done (frame :: rest) g)
    (hstart : start.mechanism = .entry) {p : Path}
    (hnone : g.aliases.lookup frame.rawPath = none)
    (hp : fs.resolve frame.rawPath frame.hint frame.mechanism frame.specifier = .ok p)
    (hnew : g.file? p = none) {tree : SourceTree} {all : List Edge}
    (hload : load fs names p = .ok tree) (hall : allDependencies tree = .ok all) :
    Followed fs names start (done ++ [frame])
      (framesOf p frame.hint (all.filter (!·.isBuiltin)) ++ rest)
      ((g.addAlias frame.rawPath p).addFile frame p tree all).1 := by
  have hself := lookup_addAlias_self p hnone
  have hfile : ((g.addAlias frame.rawPath p).addFile frame p tree all).1.file? p
      = some (newFile frame p tree all) := by
    have hold : g.files.find? (·.path = p) = none := hnew
    simp [Graph.file?, find?_append, hold, newFile]
  -- The path of a file is known, so no tree is kept for a new path.
  have htree : g.trees.lookup frame.rawPath = none := by
    refine lookup_eq_none_iff.2 fun kept hkept ↦ ?_
    have hmem : kept.1 ∈ g.files.map (·.rawPath) := h.trees ▸ mem_map_of_mem hkept
    obtain ⟨file, hfile, hraw⟩ := mem_map.1 hmem
    obtain ⟨f, -, tree, all, hfound, halias, -⟩ := h.found file hfile
    rw [bne_iff_ne]
    rintro heq
    have : f.rawPath = frame.rawPath := by rw [heq, ← hraw, hfound]; rfl
    rw [this, hnone] at halias
    cases halias
  have hlookup : ((g.addAlias frame.rawPath p).addFile frame p tree all).1.lookup frame.rawPath
      = some (newFile frame p tree all) := lookup_eq_some (by simpa using hself) hfile
  refine h.step _ ((extends_addFile _ _ _ _).trans (extends_addAlias _ _)) ?_
    ⟨p, _, by simpa using hself, hfile⟩ (fun raw q hq ↦ ?_) ?_ (fun file hfile ↦ ?_) ?_ ?_ ?_
  · rw [framesOf_eq frame p tree all]
    simpa [references] using perm_append_comm.trans
      ((reverse_perm _).symm.append_right _)
  · exact h.resolved_addAlias hnone hp (by simpa using hq)
  · have hpath : p ∉ g.files.map (·.path) := notMem_of_file?_eq_none hnew
    rw [addFile_files, map_append, nodup_append]
    exact ⟨h.paths, by simp, by simpa [newFile] using hpath⟩
  · rw [addFile_files] at hfile
    rcases mem_append.1 hfile with hfile | hfile
    · exact .inl hfile
    · obtain rfl := mem_singleton.1 hfile
      exact .inr ⟨tree, all, rfl, by simpa [newFile] using hself,
        by simp [lookup_append, htree, List.lookup], hload, hall⟩
  · simp [h.trees, newFile]
  · rw [hlookup, bind_some, conflict?_newFile]
    simp
  · by_cases hmechanism : frame.mechanism = .entry
    · exact ⟨newFile frame p tree all, by simp, hmechanism, by simp [hmechanism, newFile]⟩
    · rcases h.entry with rfl | ⟨file, hfile, hentry, hpath⟩
      · exact absurd (h.eq_start ▸ hstart) hmechanism
      · exact ⟨file, by simp [hfile], hentry, by simpa [hmechanism] using hpath⟩

/-- **One step** follows one more reference. -/
theorem Followed.visit {next : Option (List Frame)}
    (h : Followed fs names start done (frame :: rest) g) (hstart : start.mechanism = .entry)
    (hvisit : visit fs names frame g = .ok (g', next)) :
    Followed fs names start (done ++ [frame]) (next.getD [] ++ rest) g' := by
  rcases visit_cases hvisit with ⟨p, hp, rfl, rfl⟩ | ⟨p, hnone, hresolve, hcases⟩
  · exact h.known hp
  · rcases hcases with ⟨file, hfile, rfl, rfl⟩ | ⟨tree, all, hnew, hload, hall, rfl, rfl⟩
    · exact h.alias hnone hresolve hfile
    · exact h.new hstart hnone hresolve hnew hload hall

/-! ### All references -/

/-- The graph of an entry, and the **order** in which its references were followed. -/
theorem exists_followed {entry : Path} (h : build fs names entry = .ok g) :
    ∃ order, Followed fs names (.entryAt (Path.absolute fs.here entry)) order [] g :=
  explore_induction
    (P := fun waiting g ↦ ∃ done,
      Followed fs names (.entryAt (Path.absolute fs.here entry)) done waiting g)
    (fun _ _ _ _ _ ⟨_, hdone⟩ hvisit ↦ ⟨_, hdone.visit rfl hvisit⟩) _
    ⟨[], followed_nil fs names _⟩ h

variable {order : List Frame} {file : SourceFile}

/-- No reference of a graph is made by the mechanism of the **entry**. -/
theorem Followed.ne_entry (h : Followed fs names start done waiting g) {f : Frame}
    (hf : f ∈ g.references) : f.mechanism ≠ .entry := by
  obtain ⟨file, hfile, hf⟩ := mem_flatMap.1 hf
  obtain ⟨e, he, rfl⟩ := mem_map.1 hf
  obtain ⟨f, -, tree, all, hfound, -, -, -, hall⟩ := h.found file hfile
  have hmem : e ∈ all.filter (!·.isBuiltin) := by
    have : file.edges = all.filter (!·.isBuiltin) := by rw [hfound]; rfl
    exact this ▸ mem_of_mem_filter he
  exact ne_entry_of_allDependencies hall (mem_of_mem_filter hmem)

theorem mem_references {e : Edge} (hfile : file ∈ g.files) (he : e ∈ file.internalEdges) :
    file.reference e ∈ g.references :=
  mem_flatMap.2 ⟨file, hfile, mem_map_of_mem he⟩

theorem Followed.mem_order_iff (h : Followed fs names start order [] g) {f : Frame} :
    f ∈ order ↔ f = start ∨ f ∈ g.references := by
  rw [← mem_cons, ← h.perm.mem_iff, append_nil]

theorem Followed.ne_nil (h : Followed fs names start order [] g) : order ≠ [] := by
  rintro rfl
  simpa using h.perm.length_eq

/-- A path determines its **file**. -/
theorem Followed.file?_path (h : Followed fs names start done waiting g) (hfile : file ∈ g.files) :
    g.file? file.path = some file := by
  obtain ⟨found, hmem, hfound, hpath⟩ := Graph.exists_file? hfile
  rw [hfound, inj_on_of_nodup_map h.paths hmem hfile hpath]

/-- Every edge **leads** to a file, by a path that is known. -/
theorem Followed.exists_dependency (h : Followed fs names start order [] g)
    (hfile : file ∈ g.files) {e : Edge} (he : e ∈ file.internalEdges) :
    ∃ target ∈ g.files, g.dependency file e.specifier = some target ∧
      g.aliases.lookup (dependencyPath file.directory e.specifier) = some target.path := by
  obtain ⟨p, target, hp, htarget⟩ := h.leads _ (h.mem_order_iff.2 (.inr (mem_references hfile he)))
  have hpath : target.path = p := by simpa using find?_some htarget
  exact ⟨target, mem_of_find?_eq_some htarget, lookup_eq_some hp htarget, hpath ▸ hp⟩

/-! ### Closed graphs -/

/-- A graph that is **closed**: its entry is the one file that no reference has found; every file
stands under its own path and under the path by which it was found; every known path stands for a
file, and the path of every edge is known; every other file was found by an edge, which has decided
its format; and the trees that are kept are those of the files, each read from its own file. -/
structure IsClosed (fs : FileSystem) (names : MarkupNames) (start : Path) (g : Graph) : Prop where
  entry : ∃ file ∈ g.files, g.aliases.lookup start = some file.path ∧ g.entry = some file.path ∧
    ∀ other ∈ g.files, other.mechanism = .entry ↔ other = file
  stored : ∀ file ∈ g.files,
    g.file? file.path = some file ∧ g.aliases.lookup file.rawPath = some file.path
  aliases : ∀ raw p, g.aliases.lookup raw = some p → ∃ file ∈ g.files, file.path = p
  edges : ∀ file ∈ g.files, ∀ e ∈ file.internalEdges,
    ∃ p, g.aliases.lookup (dependencyPath file.directory e.specifier) = some p
  reached : ∀ file ∈ g.files, g.entry ≠ some file.path → ∃ importer ∈ g.files,
    ∃ e ∈ importer.internalEdges, e.mechanism = file.mechanism ∧
      dependencyPath importer.directory e.specifier = file.rawPath ∧
      file.format = Format.forMechanism file.mechanism
  trees : ∀ raw, (∃ tree, g.trees.lookup raw = some tree) ↔ ∃ file ∈ g.files, file.rawPath = raw
  loaded : ∀ file ∈ g.files, ∃ tree, g.treeFor file = .ok tree ∧ load fs names file.path = .ok tree

/-- The reference that found a file is **the first one** or that of an edge. -/
theorem Followed.found_by (h : Followed fs names start order [] g) (hfile : file ∈ g.files) :
    ∃ f, (f = start ∨ f ∈ g.references) ∧ Finds fs names g f file := by
  obtain ⟨f, hf, hfinds⟩ := h.found file hfile
  exact ⟨f, h.mem_order_iff.1 hf, hfinds⟩

theorem Finds.rawPath_eq {f : Frame} (h : Finds fs names g f file) : file.rawPath = f.rawPath := by
  obtain ⟨tree, all, hfile, -⟩ := h
  rw [hfile]
  rfl

theorem Finds.mechanism_eq {f : Frame} (h : Finds fs names g f file) :
    file.mechanism = f.mechanism := by
  obtain ⟨tree, all, hfile, -⟩ := h
  rw [hfile]
  rfl

theorem Finds.format_eq {f : Frame} (h : Finds fs names g f file) (hf : f.mechanism ≠ .entry) :
    file.format = Format.forMechanism f.mechanism := by
  obtain ⟨tree, all, hfile, -⟩ := h
  rw [hfile]
  simp [newFile, chooseFormat, hf]

theorem Followed.isClosed {p : Path} (h : Followed fs names (.entryAt p) order [] g) :
    g.IsClosed fs names p := by
  have hmembers (file) (hfile : file ∈ g.files) :
      g.aliases.lookup file.rawPath = some file.path ∧
        ∃ tree, g.trees.lookup file.rawPath = some tree ∧ load fs names file.path = .ok tree := by
    obtain ⟨f, -, hfinds⟩ := h.found file hfile
    rw [hfinds.rawPath_eq]
    obtain ⟨tree, all, -, halias, htree, hload, -⟩ := hfinds
    exact ⟨halias, tree, htree, hload⟩
  -- Only the first reference is made by the mechanism of the entry.
  have hentry (file) (hfile : file ∈ g.files) (hmechanism : file.mechanism = .entry) :
      g.aliases.lookup p = some file.path := by
    obtain ⟨f, rfl | hf, hfinds⟩ := h.found_by hfile
    · obtain ⟨tree, all, -, halias, -⟩ := hfinds
      exact halias
    · exact absurd (hfinds.mechanism_eq ▸ hmechanism) (h.ne_entry hf)
  obtain ⟨file, hfile, hmechanism, hpath⟩ := h.entry.resolve_left h.ne_nil
  have halias := hentry file hfile hmechanism
  refine ⟨⟨file, hfile, halias, hpath,
      fun other hother ↦ ⟨fun hother' ↦ ?_, fun h ↦ h ▸ hmechanism⟩⟩,
    fun file hfile ↦ ⟨h.file?_path hfile, (hmembers file hfile).1⟩, fun raw q hq ↦ ?_,
    fun file hfile e he ↦ ?_, fun other hother hne ↦ ?_, fun raw ↦ ⟨fun ⟨tree, htree⟩ ↦ ?_, ?_⟩,
    fun file hfile ↦ ?_⟩
  · have heq : other.path = file.path :=
      Option.some.inj ((hentry other hother hother').symm.trans halias)
    exact inj_on_of_nodup_map h.paths hother hfile heq
  · obtain ⟨target, htarget⟩ := h.exists_file? hq
    exact ⟨target, mem_of_find?_eq_some htarget, by simpa using find?_some htarget⟩
  · obtain ⟨target, -, -, hp⟩ := h.exists_dependency hfile he
    exact ⟨_, hp⟩
  · obtain ⟨f, rfl | hf, hfinds⟩ := h.found_by hother
    · obtain ⟨tree, all, -, hother', -⟩ := hfinds
      exact absurd (hpath.trans (halias.symm.trans hother')) hne
    · have hformat := hfinds.format_eq (h.ne_entry hf)
      obtain ⟨importer, himporter, hf⟩ := mem_flatMap.1 hf
      obtain ⟨e, he, rfl⟩ := mem_map.1 hf
      exact ⟨importer, himporter, e, he, hfinds.mechanism_eq.symm, hfinds.rawPath_eq.symm,
        hfinds.mechanism_eq ▸ hformat⟩
  · have hmem : raw ∈ g.trees.map (·.1) := mem_map.2 ⟨_, mem_of_lookup htree, rfl⟩
    exact mem_map.1 (h.trees ▸ hmem)
  · rintro ⟨file, hfile, rfl⟩
    obtain ⟨-, tree, htree, -⟩ := hmembers file hfile
    exact ⟨tree, htree⟩
  · obtain ⟨-, tree, htree, hload⟩ := hmembers file hfile
    exact ⟨tree, by simp [treeFor, htree], hload⟩

/-- Scripts that refer to each other in a circle and by both mechanisms, and two of which name a
third one without its suffix, each with another hint. -/
def tangled : FileSystem where
  entries := [
    (["main.js"], .file (Utf8.encodeChars "import './a.ts'; require('./b.js')".toList) false),
    (["a.ts"], .file (Utf8.encodeChars "import './x'".toList) false),
    (["b.js"], .file (Utf8.encodeChars "require('./x'); require('./main.js')".toList) false),
    (["x.js"], .file [] false),
    (["x.ts"], .file [] false)]
  cwd := []

/-- The edge of `tangled` by which the typed script names a file without its suffix. -/
def bareEdge : Edge := ⟨"./x", .imported⟩

/-- The path that `bareEdge` names. -/
def barePath : Path := ⟨.root, ["x"]⟩

/-- The **graph of `tangled`**: four files, for the fifth one is not reached; two conflicts; and the
typed script, whose edge leads to a plain one. -/
theorem exists_tangled : ∃ g : Graph, build tangled {} (Path.ofText "main.js") = .ok g ∧
    g.files.map (·.path.name)
      = (["main.js", "b.js", "x.js", "a.ts"] : List String).map Text.ofString ∧
    g.conflicts.map (fun c ↦ (c.path.name, c.format, c.mechanism))
      = [(Text.ofString "main.js", .static, .required),
        (Text.ofString "x.js", .dynamic, .imported)] ∧
    ∃ file ∈ g.files, bareEdge ∈ file.internalEdges ∧
      dependencyPath file.directory bareEdge.specifier = barePath ∧
      file.hint = Text.ofString ".ts" ∧
      ∃ target, g.dependency file bareEdge.specifier = some target ∧
        target.path = ⟨.root, [Text.ofString "x.js"]⟩ := by
  obtain ⟨g, hg, h⟩ := exists_of_succeedsWith
    (x := build tangled {} (Path.ofText "main.js"))
    (p := fun g : Graph ↦
      decide (g.files.map (·.path.name)
        = (["main.js", "b.js", "x.js", "a.ts"] : List String).map Text.ofString) &&
      decide (g.conflicts.map (fun c ↦ (c.path.name, c.format, c.mechanism))
        = [(Text.ofString "main.js", .static, .required),
          (Text.ofString "x.js", .dynamic, .imported)]) &&
      g.files.any fun file : SourceFile ↦
        decide (bareEdge ∈ file.internalEdges) &&
        decide (dependencyPath file.directory bareEdge.specifier = barePath) &&
        decide (file.hint = Text.ofString ".ts") &&
        (g.dependency file bareEdge.specifier).any fun target : SourceFile ↦
          decide (target.path = ⟨.root, [Text.ofString "x.js"]⟩))
    (by decide +kernel)
  simp only [Bool.and_eq_true, List.any_eq_true, Option.any_eq_true, decide_eq_true_eq] at h
  obtain ⟨⟨hfiles, hconflicts⟩, file, hfile, ⟨⟨hedge, hpath⟩, hhint⟩, target, htarget, hx⟩ := h
  exact ⟨g, hg, hfiles, hconflicts, file, hfile, hedge, hpath, hhint, target, htarget, hx⟩

/-- The graph of **an entry** is closed. -/
theorem isClosed_build {entry : Path} (h : build fs names entry = .ok g) :
    g.IsClosed fs names (Path.absolute fs.here entry) := by
  obtain ⟨order, horder⟩ := exists_followed h
  exact horder.isClosed

/-- The graph of `tangled` is closed. -/
theorem isClosed_tangled : ∃ g : Graph, build tangled {} (Path.ofText "main.js") = .ok g ∧
    g.files.map (·.path.name)
      = (["main.js", "b.js", "x.js", "a.ts"] : List String).map Text.ofString ∧
    g.IsClosed tangled {} (Path.absolute tangled.here (Path.ofText "main.js")) := by
  obtain ⟨g, hg, hfiles, -⟩ := exists_tangled
  exact ⟨g, hg, hfiles, isClosed_build hg⟩

/-! ### Conflicts -/

/-- The conflict of a reference is the **mismatch** of its edge. -/
theorem conflict?_reference {e : Edge} (he : e.mechanism ≠ .entry) (target : SourceFile) :
    (file.reference e).conflict? target = file.mismatch? e target := by
  simp [Frame.conflict?, SourceFile.reference, SourceFile.mismatch?, he]

/-- The conflicts of the graph of an entry are exactly its **mismatches**: one for each edge of each
file that needs another format than the file to which it leads, and every edge leads to a file. -/
theorem conflicts_perm_mismatches {entry : Path} (h : build fs names entry = .ok g) :
    (∀ file ∈ g.files, ∀ e ∈ file.internalEdges,
      ∃ target ∈ g.files, g.dependency file e.specifier = some target) ∧
    g.conflicts.Perm (g.files.flatMap fun file ↦ file.internalEdges.filterMap fun e ↦
      (g.dependency file e.specifier).bind (file.mismatch? e)) := by
  obtain ⟨order, horder⟩ := exists_followed h
  refine ⟨fun file hfile e he ↦ ?_, ?_⟩
  · obtain ⟨target, htarget, hdependency, -⟩ := horder.exists_dependency hfile he
    exact ⟨target, htarget, hdependency⟩
  · have hedge (file) (hfile : file ∈ g.files) (e) (he : e ∈ file.internalEdges) :
        (g.lookup (file.reference e).rawPath).bind (file.reference e).conflict?
          = (g.dependency file e.specifier).bind (file.mismatch? e) := by
      have hne := horder.ne_entry (mem_references hfile he)
      rw [funext (conflict?_reference hne)]
      rfl
    calc g.conflicts
        |>.Perm ((Frame.entryAt _ :: g.references).filterMap
          fun f ↦ (g.lookup f.rawPath).bind f.conflict?) := by
          rw [horder.conflicts]
          exact (order.append_nil ▸ horder.perm).filterMap _
      _ = g.references.filterMap fun f ↦ (g.lookup f.rawPath).bind f.conflict? := by
          rw [List.filterMap_cons_none (by simp [Frame.entryAt, Frame.conflict?])]
      _ = _ := by
          rw [references, List.filterMap_flatMap]
          refine List.flatMap_congr fun file hfile ↦ ?_
          rw [SourceFile.references, List.filterMap_map]
          exact List.filterMap_congr fun e he ↦ hedge file hfile e he

/-- In `tangled` two edges need another format than their targets have: the one back to the entry,
and the one to a file that was found by the other mechanism. -/
theorem conflicts_tangled : ∃ g : Graph, build tangled {} (Path.ofText "main.js") = .ok g ∧
    g.conflicts.map (fun c ↦ (c.path.name, c.format, c.mechanism))
      = [(Text.ofString "main.js", .static, .required),
        (Text.ofString "x.js", .dynamic, .imported)] ∧
    g.conflicts.Perm (g.files.flatMap fun file ↦ file.internalEdges.filterMap fun e ↦
      (g.dependency file e.specifier).bind (file.mismatch? e)) := by
  obtain ⟨g, hg, -, hconflicts, -⟩ := exists_tangled
  exact ⟨g, hg, hconflicts, (conflicts_perm_mismatches hg).2⟩

/-! ### What a path stands for -/

/-- The hint of a reference whose path has a **suffix** is the suffix. -/
theorem Followed.hint_eq {p : Path} (h : Followed fs names (.entryAt p) order [] g) {f : Frame}
    (hf : f ∈ order) (hsuffix : f.rawPath.suffix ≠ []) : f.hint = f.rawPath.suffix := by
  rcases h.mem_order_iff.1 hf with rfl | hf
  · rfl
  · obtain ⟨file, -, hf⟩ := mem_flatMap.1 hf
    obtain ⟨e, -, rfl⟩ := mem_map.1 hf
    exact if_neg (by simpa [SourceFile.reference] using hsuffix)

end Graph

end ScriptTree
