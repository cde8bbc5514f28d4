import ScriptTree.Proofs.Clearing
import ScriptTree.Proofs.Discovery
import ScriptTree.Proofs.Seclusion

/-!
# What a build writes

A build goes through its **stages**: it finds its configuration and its output directory, clears the
output directory, explores the graph of the entry and makes the plan. If it then returns a path, all
files were written one after the other, which is one of the orders in which their tasks can take
their steps. So there was a vacancy for the output, no file is in the way of another, and what holds
of every order holds: the output directory has exactly the files of the plan in it. For this the
order need not be known: whenever all tasks have succeeded, it is so. That they do succeed in every
order, and write the same, is known if the packages that are consulted lie apart from the output.

## Main results

* `Stages.exists_of_returns`: a build that returns a path has gone through its stages.
* `build_writes_plan`: and it has written exactly its plan.
-/

namespace ScriptTree

open List ScriptTree.Action
open FileSystem

/-! ### The stages of a build -/

/-- The directory that is named or set is taken as an **absolute** path, and nothing changes. -/
theorem returns_directoryOr {config : Config} {setting : Setting} {given : Option Text}
    {fs fs' : FileSystem} {out : Path} (h : (directoryOr config setting given).Returns fs out fs') :
    fs = fs' ∧ ∃ name, out = Path.absolute fs.here (Path.ofText name) := by
  obtain ⟨fs₁, fs₂, hget, h⟩ := returns_bind.1 h
  obtain ⟨rfl, rfl⟩ := returns_get.1 hget
  split at h
  · next name _ =>
    obtain ⟨rfl, rfl⟩ := returns_pure.1 h
    exact ⟨rfl, name, rfl⟩
  · obtain ⟨name, fs₂, hfind, h⟩ := returns_bind.1 h
    obtain ⟨-, rfl⟩ := returns_find.1 hfind
    obtain ⟨rfl, rfl⟩ := returns_pure.1 h
    exact ⟨rfl, name, rfl⟩

/-- The **stages** of a build: its configuration, its output directory, the file system once that is
cleared, the graph of the entry, and the plan. -/
structure Stages (given : Option Config) (environment : Environment) (entry : Path)
    (output : Option Text) (fs : FileSystem) where
  config : Config
  out : Path
  cleared : FileSystem
  graph : Graph
  found : Path
  plan : Plan
  configured : (configOr given environment).Returns fs config fs
  named : (directoryOr config .buildDirectory output).Returns fs out fs
  reset : (resetOutput out (Path.absolute fs.here entry)).Returns fs () cleared
  explored : Graph.build cleared config.markupNames (Path.absolute fs.here entry) = .ok graph
  entered : graph.entry = some found
  planned : Plan.make cleared.here graph out = .ok plan

namespace Stages

variable {given : Option Config} {environment : Environment} {entry : Path} {output : Option Text}
  {fs fs' : FileSystem} {written : Path}

/-- A build that returns a path has gone through its **stages**, and has then written all files. -/
theorem exists_of_returns
    (h : (ScriptTree.build given environment entry output).Returns fs (some written) fs') :
    ∃ b : Stages given environment entry output fs,
      (writeFiles b.graph b.plan b.graph.files).Returns b.cleared () fs' ∧
        b.plan.targetFor b.found = .ok written := by
  obtain ⟨config, fs₁, hconfig, h⟩ := returns_bind.1 h
  obtain rfl : fs = fs₁ := by
    cases given with
    | some config => exact (returns_pure.1 hconfig).2
    | none => exact (returns_find.1 hconfig).2
  obtain ⟨out, fs₁, hout, h⟩ := returns_bind.1 h
  obtain rfl : fs = fs₁ := (returns_directoryOr hout).1
  obtain ⟨fs₁, fs₂, hget, h⟩ := returns_bind.1 h
  obtain ⟨rfl, rfl⟩ := returns_get.1 hget
  obtain ⟨⟨⟩, cleared, hreset, h⟩ := returns_bind.1 h
  obtain ⟨g, fs₁, hfind, h⟩ := returns_bind.1 h
  obtain ⟨hbuild, rfl⟩ := returns_find.1 hfind
  cases hentry : g.entry with
  | none =>
    rw [hentry] at h
    exact nomatch (returns_pure.1 h).1
  | some found =>
    rw [hentry] at h
    obtain ⟨plan, fs₁, hfind, h⟩ := returns_bind.1 h
    obtain ⟨hplan, rfl⟩ := returns_find.1 hfind
    obtain ⟨⟨⟩, fs₁, hwrite, h⟩ := returns_bind.1 h
    obtain ⟨target, fs₂, hfind, h⟩ := returns_bind.1 h
    obtain ⟨htarget, rfl⟩ := returns_find.1 hfind
    obtain ⟨htarget', rfl⟩ := returns_pure.1 h
    obtain rfl := Option.some.inj htarget'
    exact ⟨⟨config, out, cleared, g, found, plan, hconfig, hout, hreset, hbuild, hentry, hplan⟩,
      hwrite, htarget⟩

variable (b : Stages given environment entry output fs)

theorem isProper_out (hfs : fs.IsTree) : b.out.IsProper := by
  obtain ⟨-, name, hout⟩ := returns_directoryOr b.named
  rw [hout]
  exact Path.isProper_absolute hfs.isProper_here name

theorem cleared_reset (hfs : fs.IsTree) : Cleared fs b.out b.cleared :=
  cleared_of_resetOutput hfs (b.isProper_out hfs).absolute b.reset

/-- There is **at least one file**, and the file system that it was read from is not empty. -/
theorem exists_file : ∃ file ∈ b.graph.files, b.cleared.entries ≠ [] := by
  obtain ⟨order, hfollowed⟩ := Graph.exists_followed b.explored
  have hclosed := hfollowed.isClosed
  obtain ⟨file, hfile, -⟩ := hclosed.entry
  obtain ⟨tree, -, hload⟩ := hclosed.loaded file hfile
  refine ⟨file, hfile, fun hempty ↦ ?_⟩
  obtain ⟨text, hread, -⟩ := bind_eq_ok_iff.1 hload
  obtain ⟨l, bytes, executable, hstat⟩ := isFile_iff.1 (isFile_of_readText hread)
  have hentry := (stat_eq_ok_iff.1 hstat).2
  have hl : l ≠ [] := by
    rintro rfl
    exact nomatch hentry
  rw [entry?_of_ne_nil hl, hempty] at hentry
  exact nomatch hentry

theorem exists_out (hfs : fs.IsTree) : b.cleared.exists_ b.out = false := by
  obtain ⟨-, -, hne⟩ := b.exists_file
  exact (b.cleared_reset hfs).gone.resolve_left hne

end Stages

section Stages

variable {given : Option Config} {environment : Environment} {entry : Text} {output : Option Text}
  {fs fs' : FileSystem} {written : Path}
  (b : Stages given environment (Path.ofText entry) output fs)

theorem Stages.traced (hfs : fs.IsTree) : Graph.Traced [] b.graph := by
  have hproper := Path.isProper_absolute hfs.isProper_here entry
  have hbuild := b.explored
  rw [← Path.ofText_text fun name hname ↦ (hproper.names name hname).1] at hbuild
  exact Graph.traced_build (b.cleared_reset hfs).isTree.toWellNamed hbuild

theorem Stages.laysOut (hfs : fs.IsTree) : b.plan.LaysOut b.graph b.out :=
  Plan.laysOut_of_make (b.traced hfs) (b.isProper_out hfs) b.planned

/-- When files have been written there was a **vacancy** for them. -/
theorem Stages.exists_vacancy (hfs : fs.IsTree)
    (h : (writeFiles b.graph b.plan b.graph.files).Returns b.cleared () fs') :
    Nonempty (Vacancy b.cleared b.out) := by
  obtain ⟨file, hfile, -⟩ := b.exists_file
  cases hfiles : b.graph.files with
  | nil => simp [hfiles] at hfile
  | cons first rest =>
    rw [hfiles] at h
    obtain ⟨fs₁, hwrite, -⟩ := returns_writeFiles_cons h
    have hfirst : first ∈ b.graph.files := by simp [hfiles]
    obtain ⟨target, htarget, fs₂, hparents⟩ := exists_of_writeFile hwrite
    rw [(b.laysOut hfs).targetFor hfirst] at htarget
    obtain rfl := Except.ok.inj htarget
    obtain ⟨names, name, hnames⟩ : ∃ names name, b.plan.namesOf first.path = names ++ [name] :=
      ⟨_, _, (dropLast_concat_getLast ((b.laysOut hfs).named first hfirst)).symm⟩
    rw [hnames, parent_append_concat] at hparents
    exact ScriptTree.exists_vacancy (b.isProper_out hfs) (b.exists_out hfs) hparents

/-! ### What a build writes -/

/-- A build **writes its plan**: what its stages have laid out, and nothing else, stands below the
output directory, in whatever order the files are written. -/
structure Stages.WritesPlan (v : Vacancy b.cleared b.out) (written : Path) (fs' : FileSystem) :
    Prop where
  /-- Every file of the graph has one target below the output directory. -/
  laysOut : b.plan.LaysOut b.graph b.out
  /-- The path that is returned is the target of the entry. -/
  entry : b.plan.targetFor b.found = .ok written
  /-- Before anything is written, nothing of what was there is left. -/
  gone : b.cleared.exists_ b.out = false
  /-- The build itself has taken one of the orders. -/
  order : Interleaved (emitAll b.graph b.plan) b.cleared (b.graph.files.map fun _ ↦ .ok ()) fs'
  /-- Tasks that all succeed leave exactly the files of the plan, each as it was rendered while
  others were being written. -/
  exact : ∀ results final, Interleaved (emitAll b.graph b.plan) b.cleared results final →
    (∀ r ∈ results, r = .ok ()) →
    final.eraseTree v.root = b.cleared ∧ ∃ content,
      (∀ file ∈ b.graph.files, ∃ seen, seen.eraseTree v.root = b.cleared ∧
        Renders seen b.graph b.plan file (content file)) ∧
      final.HoldsExactly b.out (v.root ++ v.rest) (b.plan.outputFiles b.graph content)
  /-- If packages lie apart from the output, all tasks succeed in every order, and what is written
  does not depend on it. -/
  apart : v.Apart b.graph b.plan → ∃ content,
    (∀ file ∈ b.graph.files, Renders b.cleared b.graph b.plan file (content file)) ∧
    ∀ results final, Interleaved (emitAll b.graph b.plan) b.cleared results final →
      (∀ r ∈ results, r = .ok ()) ∧ final.eraseTree v.root = b.cleared ∧
      final.HoldsExactly b.out (v.root ++ v.rest) (b.plan.outputFiles b.graph content)

/-- **A build that returns a path has written exactly its plan.** Its stages have cleared the output
directory and laid out the graph of the entry there; the path that it returns is the target of the
entry; and in every order in which the tasks of the files take their steps, the output directory
holds in the end exactly one file for each file of the graph, at its target and with the text that
was rendered for it, and nothing else has changed. -/
theorem build_writes_plan (hfs : fs.IsTree)
    (h : (build given environment (Path.ofText entry) output).Returns fs (some written) fs') :
    ∃ (b : Stages given environment (Path.ofText entry) output fs) (v : Vacancy b.cleared b.out),
      b.WritesPlan v written fs' := by
  obtain ⟨b, hwrite, hentry⟩ := Stages.exists_of_returns h
  obtain ⟨v⟩ := b.exists_vacancy hfs hwrite
  have hlaid := b.laysOut hfs
  have hcleared := (b.cleared_reset hfs).isTree
  have hfiles : b.graph.files ≠ [] := by
    obtain ⟨file, hfile, -⟩ := b.exists_file
    exact List.ne_nil_of_mem hfile
  have horder : Interleaved (emitAll b.graph b.plan) b.cleared
      (b.graph.files.map fun _ ↦ .ok ()) fs' := by
    have hall := interleaved_runAll (emitAll b.graph b.plan) b.cleared
    rwa [emitAll, runAll_of_returns hwrite] at hall
  refine ⟨b, v, hlaid, hentry, b.exists_out hfs, horder, ?_, ?_⟩
  · intro results final hrun hok
    obtain ⟨content, hstands, hrendered⟩ := Vacancy.exists_stands (v := v) hlaid hcleared hrun hok
    exact ⟨hstands.erased, content, hrendered, hstands.holdsExactly hlaid hfiles⟩
  · intro hapart
    -- The order that the build has taken shows that no place leads through another, and that every
    -- file can be rendered.
    obtain ⟨content, hstands, hrendered⟩ :=
      Vacancy.exists_stands (v := v) hlaid hcleared horder (by simp)
    have hrenders (file) (hfile : file ∈ b.graph.files) :
        Renders b.cleared b.graph b.plan file (content file) := by
      obtain ⟨seen, hseen, hrenders⟩ := hrendered file hfile
      exact (hapart.renders_iff hfile hseen).1 hrenders
    refine ⟨content, hrenders, fun results final hrun ↦ ?_⟩
    have hok := Vacancy.ok_of_interleaved hlaid hcleared hstands.clashFree hapart
      (fun file hfile ↦ ⟨_, hrenders file hfile⟩) hrun
    obtain ⟨content', hstands', hrendered'⟩ :=
      Vacancy.exists_stands (v := v) hlaid hcleared hrun hok
    have hsame : b.plan.outputFiles b.graph content' = b.plan.outputFiles b.graph content := by
      refine List.map_congr_left fun file hfile ↦ ?_
      obtain ⟨seen, hseen, hrenders'⟩ := hrendered' file hfile
      rw [((hapart.renders_iff hfile hseen).1 hrenders').unique (hrenders file hfile)]
    exact ⟨hok, hstands'.erased, hsame ▸ hstands'.holdsExactly hlaid hfiles⟩

/-- A script that imports another one and takes a name from a package, and an output directory with
something from before. -/
def rebuilt : FileSystem where
  entries := [
    (["src"], .directory),
    (["src", "main.ts"],
      .file (Utf8.encodeChars "import './lib/b'; import p, { a } from 'p'".toList) false),
    (["src", "lib"], .directory),
    (["src", "lib", "b.ts"], .file (Utf8.encodeChars "let b: T".toList) false),
    (["node_modules"], .directory),
    (["node_modules", "p"], .directory),
    (["node_modules", "p", "index.js"], .file [] false),
    (["out"], .directory),
    (["out", "old.js"], .file [] false)]
  cwd := []

theorem isTree_rebuilt : rebuilt.IsTree :=
  ⟨⟨by decide, by decide⟩, by decide, nested_of_entries (by decide)⟩

theorem reset_rebuilt :
    (resetOutput ⟨.root, ["out"]⟩ ⟨.root, ["src", "main.ts"]⟩).Returns rebuilt ()
      (rebuilt.eraseTree ["out"]) := rfl

/-- The package of `rebuilt` is looked for and found **outside the output**. -/
theorem secluded_rebuilt (v : Vacancy (rebuilt.eraseTree ["out"]) ⟨.root, ["out"]⟩) :
    v.Secluded ⟨.root, ["src"]⟩ "p" := by
  obtain ⟨habove, hfirst, -⟩ : v.above = [] ∧ v.first = "out" ∧ v.rest = [] := by
    have hparts := v.parts
    rcases habove : v.above with - | ⟨name, above⟩
    · rw [habove] at hparts
      obtain ⟨hfirst, hrest⟩ := List.cons.inj hparts
      exact ⟨rfl, hfirst.symm, hrest.symm⟩
    · rw [habove] at hparts
      exact absurd (List.cons.inj hparts).2 (by simp)
  have hbase : v.base = [] := by
    have hfound := v.found
    rw [habove] at hfound
    exact (Prod.mk.inj (Except.ok.inj hfound)).1.symm
  have hroot : v.root = ["out"] := by rw [Vacancy.root, hbase, hfirst]; rfl
  have hlinks (l : Location) (target : Text) :
      FileSystem.entry? (rebuilt.eraseTree ["out"]) l ≠ some (.link target) := by
    intro hlink
    by_cases hl : l = []
    · simp [hl] at hlink
    · rw [entry?_of_ne_nil hl] at hlink
      have hmem := mem_of_lookup hlink
      simp [eraseTree, rebuilt] at hmem
  refine ⟨fun d hd ↦ ?_, by decide, by decide, fun d hd p hp ↦ ?_⟩
  · obtain rfl | rfl : d = ⟨.root, ["src"]⟩ ∨ d = ⟨.root, []⟩ := by simpa [Path.parents] using hd
    · refine ⟨rfl, ["src"], rfl, ?_, fun names ↦ hlinks _⟩
      rw [Vacancy.Outside, hroot]
      decide
    · refine ⟨rfl, [], rfl, ?_, fun names ↦ hlinks _⟩
      rw [Vacancy.Outside, hroot]
      decide
  · obtain rfl | rfl : d = ⟨.root, ["src"]⟩ ∨ d = ⟨.root, []⟩ := by simpa [Path.parents] using hd
    · obtain rfl := Except.ok.inj hp
      exact ⟨["p", "index.js"], by simp, by decide, by decide⟩
    · obtain rfl := Except.ok.inj hp
      exact ⟨["p", "index.js"], by simp, by decide, by decide⟩

/-- The packages of `rebuilt` lie **apart** from the output. -/
theorem apart_rebuilt (b : Stages (some []) [] (Path.ofText "src/main.ts") (some "out") rebuilt)
    (v : Vacancy b.cleared b.out) : v.Apart b.graph b.plan := by
  obtain ⟨config, out, cleared, g, found, plan, hconfig, hout, hreset, hbuild, -, hplan⟩ := b
  obtain ⟨rfl, -⟩ := returns_pure.1 hconfig
  obtain ⟨fs', hout'⟩ : ∃ fs', (directoryOr [] .buildDirectory (some "out")).Returns rebuilt
      ⟨.root, ["out"]⟩ fs' := exists_returns (by decide +kernel)
  obtain ⟨rfl, -⟩ := hout'.unique hout
  obtain ⟨-, rfl⟩ := reset_rebuilt.unique hreset
  have hcheck : succeedsWith (fun g : Graph ↦
      succeedsWith (fun plan : Plan ↦ g.files.all fun file : SourceFile ↦
          succeedsWith (· = []) (plan.consulted g file) ||
            decide (file.directory = ⟨.root, ["src"]⟩) &&
              succeedsWith (· = [("p" : Text)]) (plan.consulted g file))
        (Plan.make (rebuilt.eraseTree ["out"]).here g ⟨.root, ["out"]⟩))
      (Graph.build (rebuilt.eraseTree ["out"]) (Config.markupNames [])
        (Path.absolute rebuilt.here (Path.ofText "src/main.ts"))) = true := by
    decide +kernel
  obtain ⟨g', hbuild', hcheck⟩ := exists_of_succeedsWith hcheck
  obtain rfl := Except.ok.inj (hbuild.symm.trans hbuild')
  obtain ⟨plan', hplan', hcheck⟩ := exists_of_succeedsWith hcheck
  obtain rfl := Except.ok.inj (hplan.symm.trans hplan')
  refine Vacancy.apart_of_secluded (isTree_rebuilt.eraseTree _).toWellNamed ?_
  intro file hfile consulted hconsulted specifier hspecifier
  have hfile := all_eq_true.1 hcheck file hfile
  rw [Bool.or_eq_true, Bool.and_eq_true, decide_eq_true_eq] at hfile
  rcases hfile with hnone | ⟨hdirectory, hone⟩
  · obtain rfl := Except.ok.inj (hconsulted.symm.trans (eq_ok_of_succeedsWith hnone))
    exact absurd hspecifier not_mem_nil
  · obtain rfl := Except.ok.inj (hconsulted.symm.trans (eq_ok_of_succeedsWith hone))
    obtain rfl := mem_singleton.1 hspecifier
    rw [hdirectory]
    exact secluded_rebuilt v

/-- `rebuilt` is built, and **both scripts** are written, whatever the order. -/
theorem build_writes_rebuilt : rebuilt.IsTree ∧ ∃ fs',
    (build (some []) [] (Path.ofText "src/main.ts") (some "out")).Returns rebuilt
      (some ⟨.root, ["out", "main.mjs"]⟩) fs' ∧
    ∃ (b : Stages (some []) [] (Path.ofText "src/main.ts") (some "out") rebuilt)
      (v : Vacancy b.cleared b.out), b.WritesPlan v ⟨.root, ["out", "main.mjs"]⟩ fs' ∧
        v.Apart b.graph b.plan := by
  obtain ⟨fs', hreturns⟩ : ∃ fs', (build (some []) [] (Path.ofText "src/main.ts")
      (some "out")).Returns rebuilt (some ⟨.root, ["out", "main.mjs"]⟩) fs' :=
    Action.exists_returns (by decide +kernel)
  obtain ⟨b, v, hwrites⟩ := build_writes_plan isTree_rebuilt hreturns
  exact ⟨isTree_rebuilt, fs', hreturns, b, v, hwrites, apart_rebuilt b v⟩

end Stages

end ScriptTree
