import ScriptTree.Proofs.Emission
import ScriptTree.Proofs.Links
import ScriptTree.Proofs.Records

/-!
# Every order of writing

A plan gives each file of a graph a target of its own below the output directory, so the tasks that
write the files keep their contracts with each other. In whatever order they take their steps, each
of them has written its file in the end, or has failed for a reason that can be seen. If all have
succeeded, the output directory holds exactly the files of the plan.

There are three reasons for which a task may fail. That a file is in the way of another, or a
directory at its place, depends on the plan alone. That a text cannot be rendered may also depend on
the packages that a file imports names from, since their formats are looked up when the file is
written. If these packages lie **apart** from the output, nothing that other tasks write can change
what is found, and one order in which all tasks succeed shows that they succeed in every order, with
the same files in the end.

## Main results

* `Plan.laysOut_of_make`: every plan lays out its graph.
* `Vacancy.emitted_of_interleaved`: what all tasks have done in the end.
* `Vacancy.Stands.holdsExactly`: the output directory holds exactly the files of the plan.
* `Vacancy.not_renders_of_error`: why a task fails where no file is in the way of another.
* `Vacancy.ok_of_interleaved`: when all tasks succeed in every order.
-/

namespace ScriptTree

open List ScriptTree.Action
open FileSystem

/-! ### What the text of a file depends on -/

section Rendering

variable {fs fs' : FileSystem} {g : Graph} {plan : Plan} {file : SourceFile}

/-- A file of a graph is **rendered** to some bytes: it is linked with the specifiers that the plan
has for it, and gets the head of its format. -/
def Renders (fs : FileSystem) (g : Graph) (plan : Plan) (file : SourceFile) (bytes : Bytes) :
    Prop :=
  ∃ targets tree text, plan.specifierTargets g file = .ok targets ∧ g.treeFor file = .ok tree ∧
    link fs file.directory tree targets = .ok text ∧
    Utf8.encode? (renderOutput text file.format) = .ok bytes

theorem renders_iff {bytes : Bytes} :
    Renders fs g plan file bytes ↔
      ∃ text, fileOutput fs g plan file = .ok text ∧ Utf8.encode? text = .ok bytes := by
  simp only [fileOutput, bind_eq_ok_iff, pure_eq_ok_iff]
  constructor
  · rintro ⟨targets, tree, text, htargets, htree, hlink, hbytes⟩
    exact ⟨_, ⟨targets, htargets, tree, htree, text, hlink, rfl⟩, hbytes⟩
  · rintro ⟨-, ⟨targets, htargets, tree, htree, text, hlink, rfl⟩, hbytes⟩
    exact ⟨targets, tree, text, htargets, htree, hlink, hbytes⟩

theorem Renders.unique {bytes bytes' : Bytes} (h : Renders fs g plan file bytes)
    (h' : Renders fs g plan file bytes') : bytes = bytes' := by
  obtain ⟨text, htext, hbytes⟩ := renders_iff.1 h
  obtain ⟨text', htext', hbytes'⟩ := renders_iff.1 h'
  rw [htext] at htext'
  cases htext'
  rw [hbytes] at hbytes'
  exact Except.ok.inj hbytes'

/-- The packages that a file **consults**: it imports names from them, so that their formats decide
on its text. -/
def Plan.consulted (plan : Plan) (g : Graph) (file : SourceFile) : Except Failure (List Text) := do
  let targets ← plan.specifierTargets g file
  let tree ← g.treeFor file
  let found ← tree.linkRecords targets
  return (found.filterMap (·.taken)).map (·.specifier)

theorem addInterop_congr {importer : Path} {items : List NamedImport}
    (h : ∀ specifier ∈ items.map (·.specifier),
      externalFormat fs importer specifier = externalFormat fs' importer specifier)
    (tree : SourceTree) (edits : EditSet) :
    addInterop fs importer tree items edits = addInterop fs' importer tree items edits := by
  exact congrArg (· >>= _) (mapM_congr fun specifier hspecifier ↦
    h specifier (mem_eraseDups.1 hspecifier))

/-- The text of a file depends on the file system only through the **packages that it consults**. -/
theorem fileOutput_congr (h : ∀ consulted, plan.consulted g file = .ok consulted →
      ∀ specifier ∈ consulted, externalFormat fs file.directory specifier
        = externalFormat fs' file.directory specifier) :
    fileOutput fs g plan file = fileOutput fs' g plan file := by
  rw [fileOutput, fileOutput]
  rw [Plan.consulted] at h
  cases htargets : plan.specifierTargets g file with
  | error e => rfl
  | ok targets =>
    cases htree : g.treeFor file with
    | error e => rfl
    | ok tree =>
      have hedits : linkEdits fs file.directory tree targets
          = linkEdits fs' file.directory tree targets := by
        rw [linkEdits_eq_found, linkEdits_eq_found]
        cases hfound : tree.linkRecords targets with
        | error e => rfl
        | ok found =>
          refine addInterop_congr (h _ ?_) tree _
          simp only [htargets, htree, hfound, bind, Except.bind]
          rfl
      show (link fs file.directory tree targets >>= _)
        = (link fs' file.directory tree targets >>= _)
      rw [link, link, hedits]

end Rendering

/-! ### The layout of a plan -/

theorem Path.IsProper.absolute_eq {p : Path} (h : p.IsProper) (cwd : Path) :
    Path.absolute cwd p = p := by
  rw [Path.absolute, Path.join, if_pos h.absolute, h.normal_eq]

namespace Plan

variable {cwd output out : Path} {g : Graph} {plan : Plan}

/-- No two files have the **same target**. -/
theorem nodup_targets (h : make cwd g output = .ok plan) : (plan.targets.map (·.2)).Nodup := by
  obtain ⟨targets, hfold, hplan⟩ := bind_eq_ok_iff.1 h
  rw [pure_eq_ok_iff] at hplan
  subst hplan
  refine foldlM_invariant (P := fun (_ : List SourceFile) (ts : List (Path × Path)) ↦
    (ts.map (·.2)).Nodup) ?_ g.files [] (by simp) hfold
  intro done file ts ts' hnodup hadd
  obtain ⟨t, -, hadd⟩ := bind_eq_ok_iff.1 hadd
  split at hadd
  · simp at hadd
  · next hnone =>
    rw [pure_eq_ok_iff] at hadd
    subst hadd
    rw [map_append, nodup_append]
    refine ⟨hnodup, nodup_singleton t, fun a ha b hb ↦ ?_⟩
    obtain ⟨other, hother, rfl⟩ := mem_map.1 ha
    obtain rfl := mem_singleton.1 hb
    exact of_decide_eq_false (eq_false_of_ne_true (find?_eq_none.1 hnone other hother))

/-- The **names** below the output directory under which the file at a path is written. -/
def namesOf (plan : Plan) (p : Path) : List Text :=
  match plan.targetFor p with
  | .ok target => target.parts.drop plan.outputDirectory.parts.length
  | .error _ => []

/-- The files of a graph with their names below the output directory, and with some contents. -/
def outputFiles (plan : Plan) (g : Graph) (content : SourceFile → Bytes) :
    List (List Text × Bytes) :=
  g.files.map fun file ↦ (plan.namesOf file.path, content file)

/-- A plan **lays out** a graph below an output directory: every file has one target there, and no
two have the same. -/
structure LaysOut (plan : Plan) (g : Graph) (out : Path) : Prop where
  paths : (g.files.map (·.path)).Nodup
  targets : plan.targets = g.files.map fun file ↦ (file.path, out.append (plan.namesOf file.path))
  distinct : (g.files.map fun file ↦ plan.namesOf file.path).Nodup
  proper : ∀ file ∈ g.files, Path.up ∉ plan.namesOf file.path
  named : ∀ file ∈ g.files, plan.namesOf file.path ≠ []

theorem LaysOut.targetFor (h : plan.LaysOut g out) {file : SourceFile} (hfile : file ∈ g.files) :
    plan.targetFor file.path = .ok (out.append (plan.namesOf file.path)) := by
  have hkeys : (plan.targets.map (·.1)).Nodup := by
    rw [h.targets, map_map]
    exact h.paths
  have hmem : (file.path, out.append (plan.namesOf file.path)) ∈ plan.targets := by
    rw [h.targets]
    exact mem_map.2 ⟨file, hfile, rfl⟩
  rw [Plan.targetFor, lookup_of_mem hkeys hmem]

/-- A file is written **below the output directory**, under proper names. -/
theorem targetFor_of_make (htraced : Graph.Traced [] g) (hout : out.IsProper)
    (h : make cwd g out = .ok plan) {file : SourceFile} (hfile : file ∈ g.files) :
    plan.namesOf file.path ≠ [] ∧ Path.up ∉ plan.namesOf file.path ∧
      plan.targetFor file.path = .ok (out.append (plan.namesOf file.path)) := by
  obtain ⟨houtput, hkeys, htargets⟩ := make_targets h
  rw [hout.absolute_eq] at houtput
  have hnodup : (plan.targets.map (·.1)).Nodup := hkeys ▸ htraced.nodup
  obtain ⟨t, hmem, ht⟩ := htargets file hfile
  obtain ⟨names, name, hparts, rfl⟩ := targetOf_eq_ok ht
  have hproper : ∀ other ∈ names ++ [name], Path.IsProperName other := fun other hother ↦
    (htraced.paths file hfile).names other (hparts ▸ mem_append_right _ hother)
  have hfound : plan.targetFor file.path
      = .ok (out.append (names ++ [Path.stem name ++ file.format.extension])) := by
    rw [targetFor, lookup_of_mem hnodup hmem, houtput]
  have hnames : plan.namesOf file.path = names ++ [Path.stem name ++ file.format.extension] := by
    simp [namesOf, hfound, houtput, Path.append]
  rw [hnames]
  refine ⟨by simp, fun hup ↦ ?_, hfound⟩
  rcases mem_append.1 hup with hup | hup
  · exact (hproper _ (mem_append_left _ hup)).2 rfl
  · have hname := (hproper name (by simp)).stem_append_extension file.format
    exact hname.2 (mem_singleton.1 hup).symm

/-- The plan for an output directory **lays out** the graph there. -/
theorem laysOut_of_make (htraced : Graph.Traced [] g) (hout : out.IsProper)
    (h : make cwd g out = .ok plan) : plan.LaysOut g out := by
  obtain ⟨-, hkeys, -⟩ := make_targets h
  have hnodup : (plan.targets.map (·.1)).Nodup := hkeys ▸ htraced.nodup
  have htarget (file) (hfile : file ∈ g.files) := targetFor_of_make htraced hout h hfile
  have hvalue : ∀ t ∈ plan.targets, (t.1, out.append (plan.namesOf t.1)) = t := by
    intro t ht
    have hfile : t.1 ∈ g.files.map (·.path) := hkeys ▸ mem_map_of_mem ht
    obtain ⟨file, hfile, hpath⟩ := mem_map.1 hfile
    have hfound := (htarget file hfile).2.2
    rw [hpath, targetFor, lookup_of_mem hnodup ht] at hfound
    exact Prod.ext rfl (Except.ok.inj hfound).symm
  have hall : plan.targets
      = g.files.map fun file ↦ (file.path, out.append (plan.namesOf file.path)) :=
    calc plan.targets
        = plan.targets.map fun t ↦ (t.1, out.append (plan.namesOf t.1)) := by
          rw [map_congr_left hvalue, map_id']
      _ = (plan.targets.map (·.1)).map fun p ↦ (p, out.append (plan.namesOf p)) := by
          rw [map_map]
          rfl
      _ = _ := by
          rw [hkeys, map_map]
          rfl
  refine ⟨htraced.nodup, hall, ?_, fun file hfile ↦ (htarget file hfile).2.1,
    fun file hfile ↦ (htarget file hfile).1⟩
  have hdistinct := nodup_targets h
  rw [hall, map_map] at hdistinct
  exact List.Nodup.of_map out.append (by rwa [map_map])

end Plan

/-! ### All tasks -/

/-- The **tasks** that write the files of a graph. -/
def emitAll (g : Graph) (plan : Plan) : List (Steps FileSystem (Except Failure Unit)) :=
  g.files.map fun file ↦ (emitFile g plan file).run

/-- Writing files that **succeeds** has written each of them. -/
theorem returns_writeFiles_cons {g : Graph} {plan : Plan} {file : SourceFile}
    {rest : List SourceFile} {fs fs' : FileSystem}
    (h : (writeFiles g plan (file :: rest)).Returns fs () fs') :
    ∃ fs₁, (writeFile g plan file).Returns fs () fs₁ ∧
      (writeFiles g plan rest).Returns fs₁ () fs' := by
  obtain ⟨failed, fs₁, htry, h⟩ := returns_bind.1 h
  obtain ⟨⟨⟩, fs₂, hrest, h⟩ := returns_bind.1 h
  cases failed with
  | some e => cases h
  | none =>
    obtain ⟨-, rfl⟩ := returns_pure.1 h
    -- The attempt gives nothing to report only if it has not failed.
    rcases returns_tryCatch.1 htry with hdone | ⟨e, fs₂, -, hcaught⟩
    · obtain ⟨⟨⟩, fs₂, hwrite, hpure⟩ := returns_bind.1 hdone
      obtain ⟨-, rfl⟩ := returns_pure.1 hpure
      exact ⟨fs₂, hwrite, hrest⟩
    · exact nomatch (returns_pure.1 hcaught).1

/-- Before a file is written, the **directories** above its target are made. -/
theorem exists_of_writeFile {g : Graph} {plan : Plan} {file : SourceFile} {fs fs' : FileSystem}
    (h : (writeFile g plan file).Returns fs () fs') :
    ∃ target, plan.targetFor file.path = .ok target ∧
      ∃ fs₁, fs.makeParents target.parent = .ok fs₁ := by
  obtain ⟨text, fs₁, hfind, h⟩ := returns_bind.1 h
  obtain ⟨-, rfl⟩ := returns_find.1 hfind
  obtain ⟨target, fs₁, hfind, h⟩ := returns_bind.1 h
  obtain ⟨htarget, rfl⟩ := returns_find.1 hfind
  obtain ⟨⟨⟩, fs₁, hparents, -⟩ := returns_bind.1 h
  exact ⟨target, htarget, fs₁, returns_change.1 hparents⟩

/-- Files that are written **one after the other** are written by their tasks, one after the
other. -/
theorem runAll_of_returns {g : Graph} {plan : Plan} {files : List SourceFile} {fs fs' : FileSystem}
    (h : (writeFiles g plan files).Returns fs () fs') :
    runAll (files.map fun file ↦ (emitFile g plan file).run) fs
      = (files.map fun _ ↦ .ok (), fs') := by
  induction files generalizing fs with
  | nil =>
    obtain ⟨-, rfl⟩ := returns_pure.1 h
    rfl
  | cons file rest ih =>
    obtain ⟨fs₁, hwrite, hrest⟩ := returns_writeFiles_cons h
    simp only [map_cons, runAll, run_emitFile hwrite, ih hrest]

namespace Vacancy

variable {cleared final : FileSystem} {out : Path} {v : Vacancy cleared out} {g : Graph}
  {plan : Plan} {results : List (Except Failure Unit)}

theorem unwritten_cleared (hcleared : cleared.IsTree) (own : List Text) :
    v.Unwritten own cleared := by
  intro content executable hfile
  have hnone : cleared.entry? (v.root ++ own) = none := hcleared.nested.entry?_eq_none v.free own
  rw [hnone] at hfile
  cases hfile

variable (v) in
/-- The **place** of a file below the root. -/
def placeOf (plan : Plan) (file : SourceFile) : List Text := v.rest ++ plan.namesOf file.path

theorem proper_place (hlaid : plan.LaysOut g out) {file : SourceFile} (hfile : file ∈ g.files) :
    Path.up ∉ v.first :: v.placeOf plan file := by
  rw [placeOf, ← cons_append, mem_append, not_or]
  exact ⟨v.proper, hlaid.proper file hfile⟩

theorem nodup_places (hlaid : plan.LaysOut g out) : (g.files.map (v.placeOf plan)).Nodup := by
  have hmap : g.files.map (v.placeOf plan)
      = (g.files.map fun file ↦ plan.namesOf file.path).map (v.rest ++ ·) := by
    rw [map_map]
    rfl
  rw [hmap]
  exact hlaid.distinct.map (append_right_injective v.rest)

/-- **All tasks in company.** In whatever order the tasks take their steps, each of them has written
its file in the end, or has failed for a reason that can be seen. -/
theorem emitted_of_interleaved (hlaid : plan.LaysOut g out) (hcleared : cleared.IsTree)
    (h : Interleaved (emitAll g plan) cleared results final) :
    v.Holds (g.files.map (v.placeOf plan)) final ∧ results.length = g.files.length ∧
      ∀ (i : Nat) file r, g.files[i]? = some file → results[i]? = some r →
        v.Emitted (v.placeOf plan file) (fun fs ↦ fileOutput fs g plan file) r final := by
  have hnodup := nodup_places (v := v) hlaid
  -- Tasks are known by their numbers, and the contract of each speaks of its place.
  have hall : v.Holds (g.files.map (v.placeOf plan)) final ∧
      results.length = (emitAll g plan).length ∧
      ∀ (i : Nat) r, results[i]? = some r → ∀ file, g.files[i]? = some file →
        v.Emitted (v.placeOf plan file) (fun fs ↦ fileOutput fs g plan file) r final := by
    refine h.ensures
      (fun i fs fs' ↦ ∀ file, g.files[i]? = some file → v.Relies (v.placeOf plan file) fs fs')
      (fun i fs fs' ↦ ∃ file, g.files[i]? = some file ∧ v.Guarantees (v.placeOf plan file) fs fs')
      (fun i r fs' ↦ ∀ file, g.files[i]? = some file →
        v.Emitted (v.placeOf plan file) (fun fs ↦ fileOutput fs g plan file) r fs')
      (fun i fs file _ ↦ Relies.refl fs)
      (fun i s s' s'' h h' file hfile ↦ (h file hfile).trans (h' file hfile)) ?_
      (holds_cleared v hcleared _) ?_
    · rintro i j fs fs' hij ⟨other, hother, hguarantees⟩ file hfile
      refine hguarantees.relies fun heq ↦ hij ?_
      have hi : i < (g.files.map (v.placeOf plan)).length := by
        rw [length_map]
        exact (List.getElem?_eq_some_iff.1 hfile).1
      exact (getElem?_inj hi hnodup).1 (by simp [hfile, hother, heq])
    · intro i t ht fs hrelies hholds
      rw [emitAll, getElem?_map, Option.map_eq_some_iff] at ht
      obtain ⟨file, hfile, rfl⟩ := ht
      have hmem : file ∈ g.files := mem_of_getElem? hfile
      have hensures := ensures_emitFile (g := g) hholds
        ((unwritten_cleared hcleared _).mono (hrelies file hfile)) (proper_place hlaid hmem)
        (mem_map_of_mem hmem) (by simp [placeOf, hlaid.named file hmem])
        ((hlaid.targetFor hmem).trans (congrArg _ (v.append_eq_path _)))
      simpa [hfile, contract] using hensures
  obtain ⟨hholds, hlength, hpost⟩ := hall
  exact ⟨hholds, by simpa [emitAll] using hlength, fun i file r hfile hr ↦ hpost i r hr file hfile⟩

end Vacancy

/-! ### What stands in the end -/

namespace FileSystem

variable {fs : FileSystem} {l : Location} {names : List Text} {bytes : Bytes}

/-- What is **listed** below a location without links: all files with their names from there. -/
theorem mem_filesBelow (hnodup : (fs.entries.map (·.1)).Nodup)
    (hlinks : ∀ names target, fs.entry? (l ++ names) ≠ some (.link target)) :
    (names, bytes) ∈ fs.filesBelow l ↔
      names ≠ [] ∧ ∃ executable, fs.entry? (l ++ names) = some (.file bytes executable) := by
  rw [filesBelow, mem_filterMap]
  constructor
  · rintro ⟨⟨k, e⟩, hmem, hlisted⟩
    simp only [Option.ite_none_right_eq_some, List.isPrefixOf_iff_prefix] at hlisted
    obtain ⟨⟨⟨below, rfl⟩, hne⟩, hlisted⟩ := hlisted
    have hbelow : below ≠ [] := by
      rintro rfl
      exact hne (append_nil l).symm
    have hentry : fs.entry? (l ++ below) = some e := by
      rw [entry?_of_ne_nil (by simp [hbelow]), lookup_of_mem hnodup hmem]
    cases e with
    | file content executable =>
      simp only [drop_left, Option.some.injEq] at hlisted
      obtain ⟨rfl, rfl⟩ := hlisted
      exact ⟨hbelow, executable, hentry⟩
    | directory => cases hlisted
    | link target => exact absurd hentry (hlinks below target)
  · rintro ⟨hnames, executable, hentry⟩
    rw [entry?_of_ne_nil (by simp [hnames])] at hentry
    exact ⟨_, mem_of_lookup hentry, by simp [hnames]⟩

theorem nodup_filesBelow (hnodup : (fs.entries.map (·.1)).Nodup) : (fs.filesBelow l).Nodup := by
  show List.Pairwise (· ≠ ·) _
  refine (pairwise_map.1 hnodup).filterMap _ ?_
  -- What is listed is listed under the rest of its location, so two that agree are one entry.
  rintro ⟨k, e⟩ ⟨k', e'⟩ hne item hitem item' hitem' rfl
  simp only [Option.ite_none_right_eq_some, List.isPrefixOf_iff_prefix] at hitem hitem'
  obtain ⟨⟨⟨below, rfl⟩, -⟩, hitem⟩ := hitem
  obtain ⟨⟨⟨below', rfl⟩, -⟩, hitem'⟩ := hitem'
  have hbelow : below = item.1 := by grind
  have hbelow' : below' = item.1 := by grind
  exact hne (by rw [hbelow, hbelow'])

/-- Below an output directory at some location stand **exactly** some files, and the directories on
the way to them. -/
structure HoldsExactly (fs : FileSystem) (out : Path) (l : Location)
    (files : List (List Text × Bytes)) : Prop where
  directory : fs.stat out = .ok (l, .directory)
  entry : ∀ names e, names ≠ [] → (fs.entry? (l ++ names) = some e ↔
    (∃ bytes, e = .file bytes false ∧ (names, bytes) ∈ files) ∨
      e = .directory ∧ ∃ more, more ≠ [] ∧ names ++ more ∈ files.map (·.1))
  read : ∀ file ∈ files, fs.read (out.append file.1) = .ok file.2
  listed : (fs.filesBelow l).Perm files

end FileSystem

namespace Vacancy

variable {cleared final : FileSystem} {out : Path} (v : Vacancy cleared out) (g : Graph)
  (plan : Plan) (content : SourceFile → Bytes)

/-- All files of a graph **stand** at their places, with some contents. -/
structure Stands (fs : FileSystem) : Prop extends v.Holds (g.files.map (v.placeOf plan)) fs where
  stands : ∀ file ∈ g.files,
    fs.entry? (v.root ++ v.placeOf plan file) = some (.file (content file) false)

namespace Stands

variable {v g plan content}

theorem entry?_names (h : v.Stands g plan content final) {file : SourceFile}
    (hfile : file ∈ g.files) : final.entry? (v.root ++ v.rest ++ plan.namesOf file.path)
      = some (.file (content file) false) := by
  rw [append_assoc]
  exact h.stands file hfile

theorem ne_link_names (h : v.Stands g plan content final) (names : List Text) (target : Text) :
    final.entry? (v.root ++ v.rest ++ names) ≠ some (.link target) := by
  rw [append_assoc]
  exact h.ne_link

/-- What stands below the output directory is a **file of the plan**, or a directory on the way to
one. -/
theorem entry?_eq_some_iff (h : v.Stands g plan content final) {names : List Text} {e : Entry} :
    final.entry? (v.root ++ v.rest ++ names) = some e ↔
      (∃ bytes, e = .file bytes false ∧ (names, bytes) ∈ plan.outputFiles g content) ∨
        e = .directory ∧ ∃ more, more ≠ [] ∧
          names ++ more ∈ (plan.outputFiles g content).map (·.1) := by
  have hnames : (plan.outputFiles g content).map (·.1)
      = g.files.map fun file ↦ plan.namesOf file.path := map_map
  rw [hnames]
  constructor
  · intro he
    rw [append_assoc] at he
    rcases h.below _ e he with ⟨rfl, more, hmore, hplace⟩ | ⟨hplace, bytes, rfl⟩
    · obtain ⟨file, hfile, heq⟩ := mem_map.1 hplace
      rw [placeOf, append_assoc, append_cancel_left_eq] at heq
      exact .inr ⟨rfl, more, hmore, mem_map.2 ⟨file, hfile, heq⟩⟩
    · obtain ⟨file, hfile, heq⟩ := mem_map.1 hplace
      rw [← heq, h.stands file hfile] at he
      rw [placeOf, append_cancel_left_eq] at heq
      exact .inl ⟨_, (Option.some.inj he).symm, mem_map.2 ⟨file, hfile, by rw [heq]⟩⟩
  · rintro (⟨bytes, rfl, hmem⟩ | ⟨rfl, more, hmore, hmem⟩)
    · obtain ⟨file, hfile, heq⟩ := mem_map.1 hmem
      cases heq
      exact h.entry?_names hfile
    · obtain ⟨file, hfile, heq⟩ := mem_map.1 hmem
      have hentry := h.entry?_names hfile
      rw [heq, ← append_assoc] at hentry
      exact h.nested.directory_of_prefix hmore hentry

theorem stat_out (h : v.Stands g plan content final) (hlaid : plan.LaysOut g out)
    (hfiles : g.files ≠ []) : final.stat out = .ok (v.root ++ v.rest, .directory) := by
  obtain ⟨file, hfile⟩ := exists_mem_of_ne_nil _ hfiles
  have hdir := h.nested.directory_of_prefix (hlaid.named file hfile) (h.entry?_names hfile)
  have hself : v.path v.rest = out := by simpa [Path.append] using (v.append_eq_path []).symm
  have hstat := h.stat_of_entry v.proper hdir
  rwa [hself] at hstat

/-- When every file stands at its place, the output directory holds **exactly** the plan. -/
theorem holdsExactly (h : v.Stands g plan content final) (hlaid : plan.LaysOut g out)
    (hfiles : g.files ≠ []) :
    final.HoldsExactly out (v.root ++ v.rest) (plan.outputFiles g content) := by
  refine ⟨h.stat_out hlaid hfiles, fun names e _ ↦ h.entry?_eq_some_iff, ?_, ?_⟩
  · intro item hitem
    obtain ⟨file, hfile, rfl⟩ := mem_map.1 hitem
    have hstat := h.stat_of_entry (proper_place hlaid hfile) (h.stands file hfile)
    rw [v.append_eq_path, FileSystem.read, show v.rest ++ _ = v.placeOf plan file from rfl, hstat]
    rfl
  · refine (perm_ext_iff_of_nodup (nodup_filesBelow h.nodup) ?_).2 ?_
    · refine List.Nodup.of_map (·.1) ?_
      rw [Plan.outputFiles, map_map]
      exact hlaid.distinct
    · rintro ⟨names, bytes⟩
      rw [mem_filesBelow h.nodup h.ne_link_names]
      constructor
      · rintro ⟨-, executable, hentry⟩
        rcases h.entry?_eq_some_iff.1 hentry with ⟨bytes', he, hmem⟩ | ⟨he, -⟩
        · obtain ⟨rfl, -⟩ := Entry.file.inj he
          exact hmem
        · cases he
      · intro hmem
        refine ⟨?_, false, h.entry?_eq_some_iff.2 (.inl ⟨bytes, rfl, hmem⟩)⟩
        obtain ⟨file, hfile, heq⟩ := mem_map.1 hmem
        rw [← (Prod.mk.inj heq).1]
        exact hlaid.named file hfile

end Stands

/-! ### Every order -/

/-- **No place leads through another**: no file would have to stand in a file. -/
def ClashFree : Prop :=
  ∀ file ∈ g.files, ∀ other ∈ g.files, ∀ names, names ≠ [] →
    v.placeOf plan other ≠ v.placeOf plan file ++ names

/-- The packages that files consult lie **apart** from the output: to find their formats nothing at
the root of the output or below is read, so these are the same whatever stands there. -/
def Apart : Prop :=
  ∀ file ∈ g.files, ∀ consulted, plan.consulted g file = .ok consulted → ∀ specifier ∈ consulted,
    ∀ fs, fs.eraseTree v.root = cleared →
      externalFormat fs file.directory specifier = externalFormat cleared file.directory specifier

variable {v g plan content} {results : List (Except Failure Unit)}

/-- Where all files stand, no place leads through another. -/
theorem Stands.clashFree (h : v.Stands g plan content final) : v.ClashFree g plan := by
  intro file hfile other hother names hnames heq
  have hentry := h.stands other hother
  rw [heq, ← append_assoc] at hentry
  have hdir := h.nested.directory_of_prefix hnames hentry
  rw [h.stands file hfile] at hdir
  cases hdir

theorem Apart.renders_iff (h : v.Apart g plan) {file : SourceFile} (hfile : file ∈ g.files)
    {seen : FileSystem} (hseen : seen.eraseTree v.root = cleared) {bytes : Bytes} :
    Renders seen g plan file bytes ↔ Renders cleared g plan file bytes := by
  rw [ScriptTree.renders_iff, ScriptTree.renders_iff,
    fileOutput_congr fun consulted hconsulted specifier hspecifier ↦
      h file hfile consulted hconsulted specifier hspecifier seen hseen]

/-- Tasks that have **all succeeded**, in whatever order, have written what they rendered. -/
theorem exists_stands (hlaid : plan.LaysOut g out) (hcleared : cleared.IsTree)
    (h : Interleaved (emitAll g plan) cleared results final) (hok : ∀ r ∈ results, r = .ok ()) :
    ∃ content, v.Stands g plan content final ∧ ∀ file ∈ g.files,
      ∃ seen, seen.eraseTree v.root = cleared ∧ Renders seen g plan file (content file) := by
  obtain ⟨hholds, hlength, hemitted⟩ := emitted_of_interleaved (v := v) hlaid hcleared h
  have hwritten : ∀ file ∈ g.files, ∃ bytes,
      final.entry? (v.root ++ v.placeOf plan file) = some (.file bytes false) ∧
        ∃ seen, seen.eraseTree v.root = cleared ∧ Renders seen g plan file bytes := by
    intro file hfile
    obtain ⟨i, hi⟩ := getElem?_of_mem hfile
    obtain ⟨r, hr⟩ : ∃ r, results[i]? = some r := by
      have hlt := (List.getElem?_eq_some_iff.1 hi).1
      exact ⟨_, getElem?_eq_getElem (by omega)⟩
    obtain rfl := hok r (mem_of_getElem? hr)
    obtain ⟨seen, text, bytes, hseen, htext, hbytes, hentry⟩ := hemitted i file _ hi hr
    exact ⟨bytes, hentry, seen, hseen, ScriptTree.renders_iff.2 ⟨text, htext, hbytes⟩⟩
  choose! content hentry hseen using hwritten
  exact ⟨content, ⟨hholds, hentry⟩, hseen⟩

/-- If no place leads through another, a task **fails** only where its file cannot be rendered. -/
theorem not_renders_of_error (hlaid : plan.LaysOut g out) (hcleared : cleared.IsTree)
    (hclash : v.ClashFree g plan) (h : Interleaved (emitAll g plan) cleared results final)
    {i : Nat} {file : SourceFile} {e : Failure} (hfile : g.files[i]? = some file)
    (hi : results[i]? = some (.error e)) :
    ∃ seen, seen.eraseTree v.root = cleared ∧ ∀ bytes, ¬ Renders seen g plan file bytes := by
  obtain ⟨hholds, -, hemitted⟩ := emitted_of_interleaved (v := v) hlaid hcleared h
  have hmem : file ∈ g.files := mem_of_getElem? hfile
  -- The reasons that lie in the places are ruled out by what stands in the end.
  rcases hemitted i file _ hfile hi with
    ⟨before, after, bytes, executable, heq, hentry⟩ | hdir | ⟨seen, hseen, hfail⟩
  · rcases hholds.below before _ hentry with ⟨he, -⟩ | ⟨hplace, -⟩
    · cases he
    · obtain ⟨other, hother, rfl⟩ := mem_map.1 hplace
      have hne : v.placeOf plan file ≠ [] := by simp [placeOf, hlaid.named file hmem]
      refine absurd ?_ (hclash other hother file hmem
        (after ++ [(v.placeOf plan file).getLast hne]) (by simp))
      rw [← append_assoc, ← heq, dropLast_concat_getLast]
  · rcases hholds.below _ _ hdir with ⟨-, names, hnames, hplace⟩ | ⟨-, bytes, he⟩
    · obtain ⟨other, hother, heq⟩ := mem_map.1 hplace
      exact absurd heq (hclash file hmem other hother names hnames)
    · cases he
  · refine ⟨seen, hseen, fun bytes hbytes ↦ ?_⟩
    obtain ⟨text, htext, hencoded⟩ := ScriptTree.renders_iff.1 hbytes
    exact hfail text bytes htext hencoded

/-- If no place leads through another, every file can be rendered and packages lie apart, then in
**every order** all tasks succeed. -/
theorem ok_of_interleaved (hlaid : plan.LaysOut g out) (hcleared : cleared.IsTree)
    (hclash : v.ClashFree g plan) (hapart : v.Apart g plan)
    (hrenders : ∀ file ∈ g.files, ∃ bytes, Renders cleared g plan file bytes)
    (h : Interleaved (emitAll g plan) cleared results final) : ∀ r ∈ results, r = .ok () := by
  obtain ⟨-, hlength, -⟩ := emitted_of_interleaved (v := v) hlaid hcleared h
  intro r hr
  obtain ⟨i, hi⟩ := getElem?_of_mem hr
  obtain ⟨file, hfile⟩ : ∃ file, g.files[i]? = some file := by
    have hlt := (List.getElem?_eq_some_iff.1 hi).1
    exact ⟨_, getElem?_eq_getElem (by omega)⟩
  have hmem : file ∈ g.files := mem_of_getElem? hfile
  cases r with
  | ok => rfl
  | error e =>
    obtain ⟨seen, hseen, hfail⟩ := not_renders_of_error hlaid hcleared hclash h hfile hi
    obtain ⟨bytes, hbytes⟩ := hrenders file hmem
    exact absurd ((hapart.renders_iff hmem hseen).2 hbytes) (hfail bytes)

end Vacancy

end ScriptTree
