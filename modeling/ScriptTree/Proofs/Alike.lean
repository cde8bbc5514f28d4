import ScriptTree.Proofs.Remains

/-!
# File systems that are alike

A file system holds its entries in some order, which is the order in which directories are listed.
Two file systems are **alike** if they have the same entries in whatever order. Nothing that a build
does tells them apart: a file is chosen by its name and not by its place in a listing, and what is
written makes alike file systems of alike ones.

Everything goes back to two facts: at each location the same entry stands (`Alike.entry?_eq`), and
in each directory there are the same names (`Alike.mem_names_iff`).

## Main results

* `FileSystem.alike_of_same`: file systems with the same entry at each location are alike.
* `FileSystem.Alike.resolve_eq`: the file that a path stands for.
* `FileSystem.Alike.graphBuild_eq`: the graph of an entry.
* `respects_writeTree`: all that a build does once the output directory is cleared.
-/

namespace ScriptTree

open List ScriptTree.Action

/-! ### Choosing a name -/

section Pick

variable {names names' siblings siblings' indices indices' : List Text}

theorem sole?_eq_some_iff {name : Text} :
    sole? names = some name ↔ name ∈ names ∧ ∀ other ∈ names, other = name := by
  cases names with
  | nil => simp [sole?]
  | cons first rest =>
    rw [sole?, Option.ite_none_right_eq_some, all_eq_true]
    constructor
    · rintro ⟨hall, heq⟩
      cases heq
      refine ⟨mem_cons_self, fun other hother ↦ ?_⟩
      rcases mem_cons.1 hother with rfl | hother
      · rfl
      · exact of_decide_eq_true (hall other hother)
    · rintro ⟨-, hall⟩
      obtain rfl := hall first mem_cons_self
      exact ⟨fun other hother ↦ decide_eq_true (hall other (mem_cons_of_mem _ hother)), rfl⟩

theorem contains_congr (h : ∀ name, name ∈ names ↔ name ∈ names') (name : Text) :
    names.contains name = names'.contains name := by
  rw [Bool.eq_iff_iff, contains_iff_mem, contains_iff_mem, h name]

/-- What is **picked** depends on which names there are, not on their order. -/
theorem pick_congr (hsiblings : ∀ name, name ∈ siblings ↔ name ∈ siblings')
    (hindices : ∀ name, name ∈ indices ↔ name ∈ indices') (name hint : Text) :
    pick name hint siblings indices = pick name hint siblings' indices' := by
  have hsole {names names' : List Text} (h : ∀ name, name ∈ names ↔ name ∈ names') :
      sole? names = sole? names' := by
    refine Option.ext fun name ↦ ?_
    rw [sole?_eq_some_iff, sole?_eq_some_iff, h name]
    exact and_congr_right' ⟨fun hall other hother ↦ hall other ((h other).2 hother),
      fun hall other hother ↦ hall other ((h other).1 hother)⟩
  simp only [pick, pickHinted, pickKnown, pickOnly, firstNamed?, contains_congr hsiblings,
    contains_congr hindices, hsole hsiblings, hsole hindices]

end Pick

namespace FileSystem

/-- Two file systems are **alike**: they have the same entries, one at a location, in whatever
order. -/
structure Alike (fs fs' : FileSystem) : Prop where
  cwd : fs.cwd = fs'.cwd
  entries : fs.entries.Perm fs'.entries
  nodup : (fs.entries.map (·.1)).Nodup

variable {fs fs' : FileSystem} {l : Location} {e : Entry} {p : Path} {follow : Bool}

theorem lookup_eq_some_iff (h : (fs.entries.map (·.1)).Nodup) :
    fs.entries.lookup l = some e ↔ (l, e) ∈ fs.entries :=
  ⟨mem_of_lookup, lookup_of_mem h⟩

/-- File systems with the **same entry** at each location are alike, if the top has no entry of its
own. -/
theorem alike_of_same (hcwd : fs.cwd = fs'.cwd) (h : (fs.entries.map (·.1)).Nodup)
    (h' : (fs'.entries.map (·.1)).Nodup) (htop : ∀ item ∈ fs.entries, item.1 ≠ [])
    (htop' : ∀ item ∈ fs'.entries, item.1 ≠ []) (hsame : ∀ l, fs.entry? l = fs'.entry? l) :
    fs.Alike fs' := by
  refine ⟨hcwd, (perm_ext_iff_of_nodup h.of_map h'.of_map).2 fun item ↦ ?_, h⟩
  by_cases hl : item.1 = []
  · exact iff_of_false (fun hmem ↦ htop item hmem hl) fun hmem ↦ htop' item hmem hl
  · have heq := hsame item.1
    rw [entry?_of_ne_nil hl, entry?_of_ne_nil hl] at heq
    show (item.1, item.2) ∈ fs.entries ↔ (item.1, item.2) ∈ fs'.entries
    rw [← lookup_eq_some_iff h, ← lookup_eq_some_iff h', heq]

namespace Alike

/-! ### Looking up -/

/-- At each location the **same entry** stands. -/
theorem entry?_eq (h : fs.Alike fs') (l : Location) : fs.entry? l = fs'.entry? l := by
  by_cases hl : l = []
  · rw [hl, entry?_nil, entry?_nil]
  · have hnodup' : (fs'.entries.map (·.1)).Nodup := (h.entries.map _).nodup_iff.1 h.nodup
    rw [entry?_of_ne_nil hl, entry?_of_ne_nil hl]
    refine Option.ext fun e ↦ ?_
    rw [lookup_eq_some_iff h.nodup, lookup_eq_some_iff hnodup']
    exact h.entries.mem_iff

/-- In each directory there are the **same names**. -/
theorem mem_names_iff (h : fs.Alike fs') (name : Text) : name ∈ fs.names l ↔ name ∈ fs'.names l :=
  (h.entries.filterMap _).mem_iff

theorem here_eq (h : fs.Alike fs') : fs.here = fs'.here := by rw [here, here, h.cwd]

theorem fileBound_eq (h : fs.Alike fs') : fs.fileBound = fs'.fileBound := by
  have hdepth : fs.depth = fs'.depth := by
    -- The depth is a maximum, for which the order does not matter.
    refine h.entries.foldl_eq' (fun item _ item' _ d ↦ ?_) 0
    rw [Nat.max_assoc, Nat.max_comm item.1.length, ← Nat.max_assoc]
  rw [fileBound, fileBound, hdepth, h.entries.length_eq]

theorem descend_eq (h : fs.Alike fs') (onLink : Location → List Text → Except OsCause Location)
    (d : Location) (names : List Text) :
    fs.descend follow onLink d names = fs'.descend follow onLink d names := by
  have hentry : fs.entry? = fs'.entry? := funext h.entry?_eq
  induction names generalizing d with
  | nil => rfl
  | cons name names ih => simp only [descend, hentry, ih]

theorem locateFrom_eq (h : fs.Alike fs') (links : Nat) (d : Location) (names : List Text) :
    fs.locateFrom follow links d names = fs'.locateFrom follow links d names := by
  induction links generalizing d names with
  | zero => exact h.descend_eq _ d names
  | succ links ih =>
    have hlinks : fs.locateFrom follow links = fs'.locateFrom follow links :=
      funext fun d ↦ funext fun names ↦ ih d names
    rw [locateFrom, hlinks]
    exact h.descend_eq _ d names

theorem locate_eq (h : fs.Alike fs') (follow : Bool) (p : Path) :
    fs.locate follow p = fs'.locate follow p := by
  rw [locate, h.cwd]
  exact h.locateFrom_eq ..

theorem stat_eq (h : fs.Alike fs') (p : Path) : fs.stat p = fs'.stat p := by
  rw [stat, h.locate_eq]
  exact bind_congr fun l ↦ by rw [h.entry?_eq]

theorem isFile_eq (h : fs.Alike fs') (p : Path) : fs.isFile p = fs'.isFile p := by
  rw [isFile, isFile, h.stat_eq]

theorem isDirectory_eq (h : fs.Alike fs') (p : Path) : fs.isDirectory p = fs'.isDirectory p := by
  rw [isDirectory, isDirectory, h.stat_eq]

theorem read_eq (h : fs.Alike fs') (p : Path) : fs.read p = fs'.read p := by
  rw [read, read, h.stat_eq]

theorem readText_eq (h : fs.Alike fs') (p : Path) : fs.readText p = fs'.readText p := by
  rw [readText, readText, h.read_eq]

/-- Listings have the **same names** in them. -/
theorem corresponds_list (h : fs.Alike fs') (p : Path) :
    Corresponds (fun names names' ↦ ∀ name, name ∈ names ↔ name ∈ names') (fs.list p)
      (fs'.list p) := by
  rw [list, list, h.stat_eq]
  cases fs'.stat p with
  | error cause => exact .error _
  | ok found =>
    obtain ⟨l, e⟩ := found
    cases e with
    | directory => exact .ok h.mem_names_iff
    | file content executable => exact .error _
    | link target => exact .error _

/-! ### Resolving -/

theorem mem_filesWithStem_iff (h : fs.Alike fs') {names names' : List Text}
    (hnames : ∀ name, name ∈ names ↔ name ∈ names') (directory : Path) (stem name : Text) :
    name ∈ fs.filesWithStem directory names stem ↔
      name ∈ fs'.filesWithStem directory names' stem := by
  rw [filesWithStem, filesWithStem, mem_filter, mem_filter, hnames, h.isFile_eq]

theorem corresponds_indexFiles (h : fs.Alike fs') (p : Path) :
    Corresponds (fun names names' ↦ ∀ name, name ∈ names ↔ name ∈ names') (fs.indexFiles p)
      (fs'.indexFiles p) := by
  rw [indexFiles, indexFiles, h.isDirectory_eq]
  split
  · rcases (h.corresponds_list p).exists_eq with ⟨e, he, he'⟩ | ⟨names, names', hn, hn', hsame⟩
    · rw [he, he']
      exact .error _
    · rw [hn, hn']
      exact .ok (h.mem_filesWithStem_iff hsame p indexStem)
  · exact .ok fun _ ↦ Iff.rfl

/-- A path stands for the **same file**. -/
theorem resolve_eq (h : fs.Alike fs') (candidate : Path) (hint : Text) (mechanism : Mechanism)
    (specifier : Option Text) :
    fs.resolve candidate hint mechanism specifier
      = fs'.resolve candidate hint mechanism specifier := by
  rw [resolve, resolve, h.isFile_eq]
  rcases (h.corresponds_list candidate.parent).exists_eq with
    ⟨e, he, he'⟩ | ⟨names, names', hn, hn', hsame⟩
  · rw [he, he']
  · -- Index files are listed only if the name is there, so both cases are needed.
    have hpick {indices indices' : List Text}
        (hindices : ∀ name, name ∈ indices ↔ name ∈ indices') :=
      pick_congr (h.mem_filesWithStem_iff hsame candidate.parent candidate.name) hindices
    have hpicks (indices : List Text) := hpick fun name ↦ Iff.refl (name ∈ indices)
    simp only [hn, hn', contains_congr hsame]
    rcases (h.corresponds_indexFiles candidate).exists_eq with
      ⟨e, he, he'⟩ | ⟨indices, indices', hi, hi', hindices⟩
    · simp only [he, he', hpicks]
    · simp only [hi, hi', bind, Except.bind, pure, hpick hindices, hpicks]

theorem manifest_eq (h : fs.Alike fs') (package : Path) :
    fs.manifest package = fs'.manifest package := by
  rw [manifest, manifest, json, json, h.read_eq]

theorem resolveInside_eq (h : fs.Alike fs') (path : Path) (specifier : Text) :
    fs.resolveInside path specifier = fs'.resolveInside path specifier := by
  rw [resolveInside, h.isDirectory_eq]
  exact h.resolve_eq ..

theorem resolveSubpath_eq (h : fs.Alike fs') (package : Path) (subpath specifier : Text) :
    fs.resolveSubpath package subpath specifier
      = fs'.resolveSubpath package subpath specifier := by
  simp only [resolveSubpath, h.manifest_eq, h.resolveInside_eq]

/-- A specifier loads the **same file** of a package. -/
theorem resolvePackage_eq (h : fs.Alike fs') (specifier : Text) (importer : Path) :
    fs.resolvePackage specifier importer = fs'.resolvePackage specifier importer := by
  simp only [resolvePackage, h.isDirectory_eq, h.resolveSubpath_eq]

theorem externalFormat_eq (h : fs.Alike fs') (importer : Path) (specifier : Text) :
    externalFormat fs importer specifier = externalFormat fs' importer specifier := by
  simp only [externalFormat, classify, h.resolvePackage_eq, h.readText_eq]

/-! ### Exploring -/

theorem visit_eq (h : fs.Alike fs') (names : MarkupNames) :
    Graph.visit fs names = Graph.visit fs' names := by
  funext frame g
  simp only [Graph.visit, Graph.load, h.resolve_eq, h.readText_eq]

theorem drain_eq (h : fs.Alike fs') (names : MarkupNames)
    (onNew : List Frame → Graph → Except Failure Graph) :
    Graph.drain fs names onNew = Graph.drain fs' names onNew := by
  funext frames g
  induction frames generalizing g with
  | nil => rfl
  | cons frame rest ih => simp only [Graph.drain, h.visit_eq, ih]

theorem explore_eq (h : fs.Alike fs') (names : MarkupNames) (n : Nat) :
    Graph.explore fs names n = Graph.explore fs' names n := by
  induction n with
  | zero => exact h.drain_eq names _
  | succ n ih => rw [Graph.explore, Graph.explore, ih, h.drain_eq]

/-- An entry has the **same graph**. -/
theorem graphBuild_eq (h : fs.Alike fs') (names : MarkupNames) (entry : Path) :
    Graph.build fs names entry = Graph.build fs' names entry := by
  rw [Graph.build, Graph.build, h.here_eq, h.fileBound_eq, h.explore_eq]

/-! ### Writing -/

theorem put (h : fs.Alike fs') (l : Location) (e : Entry) : (fs.put l e).Alike (fs'.put l e) := by
  have hany : fs.entries.any (·.1 = l) = fs'.entries.any (·.1 = l) := by
    rw [Bool.eq_iff_iff, any_eq_true, any_eq_true]
    exact exists_congr fun item ↦ and_congr_left' h.entries.mem_iff
  refine ⟨?_, ?_, nodup_put h.nodup l e⟩
  · rw [FileSystem.put, FileSystem.put, hany]
    split
    · exact h.cwd
    · exact h.cwd
  · rw [FileSystem.put, FileSystem.put, hany]
    split
    · exact h.entries.map _
    · exact h.entries.append_right _

theorem newLocation_eq (h : fs.Alike fs') (p : Path) : fs.newLocation p = fs'.newLocation p := by
  rw [newLocation, newLocation, h.stat_eq]

theorem creationLocation_eq (h : fs.Alike fs') (links : Nat) (p : Path) :
    fs.creationLocation links p = fs'.creationLocation links p := by
  induction links generalizing p with
  | zero => rfl
  | succ links ih => simp only [creationLocation, h.newLocation_eq, h.entry?_eq, ih]

theorem corresponds_makeDirectory (h : fs.Alike fs') (p : Path) :
    Corresponds Alike (fs.makeDirectory p) (fs'.makeDirectory p) := by
  rw [makeDirectory, makeDirectory, h.locate_eq, h.newLocation_eq]
  cases fs'.locate false p with
  | ok l => exact .error _
  | error cause =>
    by_cases hcause : cause = .notFound
    · subst hcause
      cases fs'.newLocation p with
      | error cause => exact .error _
      | ok l => exact .ok (h.put l .directory)
    · cases cause <;> first | exact absurd rfl hcause | exact .error _

theorem corresponds_makeParentsFrom (n : Nat) (h : fs.Alike fs') (p : Path) :
    Corresponds Alike (makeParentsFrom n fs p) (makeParentsFrom n fs' p) := by
  induction n generalizing p with
  | zero => exact h.corresponds_makeDirectory p
  | succ n ih =>
    rw [makeParentsFrom, makeParentsFrom]
    rcases (h.corresponds_makeDirectory p).exists_eq with
      ⟨e, he, he'⟩ | ⟨made, made', hmade, hmade', hsame⟩
    · simp only [he, he']
      split
      · -- The directory above is made first, and then this one is tried again.
        rcases (ih p.parent).exists_eq with ⟨e, he, he'⟩ | ⟨above, above', ha, ha', habove⟩
        · simp only [he, he']
          exact .error e
        · simp only [ha, ha']
          rcases (habove.corresponds_makeDirectory p).exists_eq with
            ⟨e, he, he'⟩ | ⟨made, made', hmade, hmade', hsame⟩
          · simp only [he, he', habove.isDirectory_eq]
            split
            · exact .ok habove
            · exact .error e
          · simp only [hmade, hmade']
            exact .ok hsame
      · rw [h.isDirectory_eq]
        split
        · exact .ok h
        · exact .error e
    · simp only [hmade, hmade']
      exact .ok hsame

theorem corresponds_write (h : fs.Alike fs') (p : Path) (bytes : Bytes) :
    Corresponds Alike (fs.write p bytes) (fs'.write p bytes) := by
  rw [write, write, h.stat_eq, h.creationLocation_eq]
  cases fs'.stat p with
  | ok found =>
    obtain ⟨l, e⟩ := found
    cases e with
    | file content executable => exact .ok (h.put l _)
    | directory => exact .error _
    | link target => exact .error _
  | error cause =>
    by_cases hcause : cause = .notFound
    · subst hcause
      cases fs'.creationLocation linkLimit p with
      | error cause => exact .error _
      | ok l => exact .ok (h.put l _)
    · cases cause <;> first | exact absurd rfl hcause | exact .error _

end Alike

end FileSystem

open FileSystem

/-! ### Building -/

theorem respects_writeOutput (target : Path) (text : Text) :
    (writeOutput target text).Respects Alike := by
  have hwrite (bytes : Bytes) (failed : OsError → Failure) :
      (Action.change (·.write target bytes) failed).Respects Alike :=
    respects_change fun _ _ h ↦ h.corresponds_write target bytes
  refine .bind (respects_change fun _ _ h ↦ h.corresponds_makeParentsFrom _ _) fun _ _ ↦ ?_
  cases Utf8.encode? text with
  | ok bytes => exact hwrite bytes _
  | error e => exact .bind (hwrite [] _) fun _ _ ↦ respects_throw _

theorem respects_writeFile (g : Graph) (plan : Plan) (file : SourceFile) :
    (writeFile g plan file).Respects Alike := by
  refine .bind (respects_find fun _ _ h ↦ ?_) fun text _ ↦ ?_
  · exact fileOutput_congr fun consulted _ specifier _ ↦ h.externalFormat_eq _ specifier
  · exact .bind (respects_find fun _ _ _ ↦ rfl)
      fun target _ ↦ respects_writeOutput target text

/-- Once the output directory is cleared, **all** that a build does comes to the same in file
systems that are alike. -/
theorem respects_writeTree (config : Config) (start out : Path) :
    (writeTree config start out).Respects Alike := by
  refine .bind (respects_find fun _ _ h ↦ h.graphBuild_eq _ start) fun g _ ↦ ?_
  cases g.entry with
  | none => exact respects_pure none
  | some found =>
    refine .bind (respects_find fun fs fs' h ↦ by rw [h.here_eq]) fun plan _ ↦ ?_
    refine .bind (respects_writeFiles fun file _ ↦ respects_writeFile g plan file) fun _ _ ↦ ?_
    exact .bind (respects_find fun _ _ _ ↦ rfl) fun target _ ↦ respects_pure _

end ScriptTree
