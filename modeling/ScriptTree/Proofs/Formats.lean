import ScriptTree.Build.Basic
import ScriptTree.Proofs.Discovery
import ScriptTree.Proofs.Plain
import ScriptTree.Proofs.Records
import ScriptTree.Proofs.Traversal

/-!
# Formats and static syntax

The format of a file is decided when it is found. What a reference finds gets the format that the
reference needs, whatever stands in it; only for the **entry**, and only if its name leaves it open,
the tree is looked at. So a file that is written as dynamic is without static syntax if it is such
an entry, and need not be if it was required.

Whatever is without static syntax stays so: when it is written, nothing is put in, and what is taken
out are specifiers.

## Main results

* `hasModuleSyntax_eq_false_iff`: what the walk for static syntax finds.
* `link_of_not_hasModuleSyntax`: linking a script without static syntax.
* `Graph.dynamic_iff`: which files are dynamic, and what is written for those without static syntax.
-/

namespace ScriptTree

variable {fs : FileSystem} {names : MarkupNames} {tree : SourceTree} {cs : List Char}

/-- A tree is without **static syntax** if none of the nodes of its statements is static. -/
theorem hasModuleSyntax_eq_false_iff :
    hasModuleSyntax tree = false ↔
      ∀ n ∈ Node.preorderAll tree.statements, n.kind ∉ moduleKinds := by
  rw [hasModuleSyntax_eq_any]
  simp

/-! ### Linking without static syntax -/

/-- Linking a script without **static syntax** puts nothing in: its edits are those at its sites. -/
theorem linkEdits_of_not_hasModuleSyntax (h : tree.Over .plain cs) (huntyped : tree.IsUntyped)
    (hnone : hasModuleSyntax tree = false) (fs : FileSystem) (importer : Path)
    (targets : SpecifierTargets) :
    linkEdits fs importer tree targets
      = (Node.gatherAll (edgeAt tree) tree.statements).map (relinks tree targets) := by
  rw [linkEdits_eq_found, gatherAll_eq_linkRecords h huntyped targets]
  cases hfound : tree.linkRecords targets with
  | error e => rfl
  | ok found =>
    -- Only imports take names, and an import is static.
    have htaken : found.filterMap (·.taken) = [] := by
      refine List.filterMap_eq_nil_iff.2 fun f hf ↦ ?_
      obtain ⟨i, m, hm, next, hsite⟩ := exists_of_mem_gatherStatements hfound hf
      refine ((linkFound_cases hsite).2 f rfl).2 fun hkind ↦ ?_
      exact hasModuleSyntax_eq_false_iff.1 hnone m hm (hkind ▸ by decide)
    show addInterop fs importer tree _ _ = .ok _
    rw [htaken, addInterop_nil, foldl_record_eq hfound]

/-- The **text** that is written for a dynamic script without static syntax: the first line, and the
script with patches at its internal sites. -/
theorem fileOutput_of_not_hasModuleSyntax {g : Graph} {plan : Plan} {file : SourceFile}
    {targets : SpecifierTargets} {all : List Edge} (h : tree.Over .plain cs)
    (huntyped : tree.IsUntyped) (hnone : hasModuleSyntax tree = false)
    (htree : g.treeFor file = .ok tree) (hall : allDependencies tree = .ok all)
    (hformat : file.format = .dynamic) (htargets : plan.specifierTargets g file = .ok targets)
    (fs : FileSystem) :
    ∃ (sites : List Site) (patches : List Patch),
      fileOutput fs g plan file
        = .ok (outputHeader ++ spliced cs patches (fun _ ↦ []) 0 (Utf8.size cs)) ∧
      sites.map (fun s ↦ ⟨s.1.value, s.2⟩) = all.filter Edge.isInternal ∧
      Held tree sites ∧ Relinks cs targets sites patches := by
  rw [allDependencies_eq] at hall
  obtain ⟨found, hfound, rfl⟩ := map_eq_ok_iff.1 hall
  have hheld := held_gatherAll hfound
  have hlink := link_of_linkEdits h
    (linkEdits_of_not_hasModuleSyntax h huntyped hnone fs file.directory targets)
  rw [hfound] at hlink
  refine ⟨internalSites found, _, ?_, edges_internalSites found,
    fun s hs ↦ hheld s (List.mem_of_mem_filter hs), relinks_patches targets h hheld⟩
  simp only [fileOutput, htargets, htree, hlink, bind, Except.bind, Except.map, pure, Except.pure]
  rw [renderOutput, if_neg (by simp [hformat])]

/-! ### Dynamic files -/

namespace Graph

variable {g : Graph} {file : SourceFile}

/-- A file is **dynamic** by its mechanism, by its name, or, if it is the entry and its name leaves
it open, because nothing in it is static and it imports nothing. -/
theorem chooseFormat_eq_dynamic_iff {mechanism : Mechanism} {p : Path} {all : List Edge} :
    chooseFormat mechanism p tree all = .dynamic ↔
      mechanism = .required ∨ mechanism = .entry ∧
        (Format.ofName? p.text = some .dynamic ∨ Format.ofName? p.text = none ∧
          hasModuleSyntax tree = false ∧ ∀ e ∈ all, e.mechanism ≠ .imported) := by
  rw [chooseFormat]
  cases mechanism with
  | required => simp [Format.forMechanism]
  | imported => simp [Format.forMechanism]
  | entry =>
    cases Format.ofName? p.text with
    | some format => simp
    | none =>
      have hsome : (all.any (·.mechanism = .imported) || hasModuleSyntax tree) = false ↔
          hasModuleSyntax tree = false ∧ ∀ e ∈ all, e.mechanism ≠ .imported := by
        rw [Bool.or_eq_false_iff, and_comm]
        simp
      rw [← hsome]
      simp

/-- The tree of a file is that of a **plain script**, and its format was chosen by it. -/
theorem exists_read_of_mem {entry : Path} (h : build fs names entry = .ok g)
    (hfile : file ∈ g.files) :
    ∃ cs all, g.treeFor file = .ok (SourceTree.read .plain cs) ∧
      allDependencies (SourceTree.read .plain cs) = .ok all ∧
      file.format = chooseFormat file.mechanism file.path (SourceTree.read .plain cs) all := by
  obtain ⟨order, horder⟩ := exists_followed h
  obtain ⟨f, -, hfinds⟩ := horder.found file hfile
  have hraw := hfinds.rawPath_eq
  obtain ⟨tree, all, hnew, -, htree, hload, hall⟩ := hfinds
  simp only [load, bind_eq_ok_iff] at hload
  obtain ⟨text, -, plain, -, hread⟩ := hload
  obtain ⟨cs, -, hstrict, -⟩ := Transform.exists_of_readAt hread
  obtain rfl := eq_read_of_readStrict hstrict
  refine ⟨cs, all, ?_, hall, ?_⟩
  · rw [treeFor, hraw, htree]
  · rw [hnew]
    rfl

/-- **Which files are dynamic.** A file of a graph is dynamic exactly if it was required, or it is
the entry and its name says so, or it is the entry, its name leaves it open, and it neither imports
anything nor holds anything static. For a dynamic file that holds nothing static, whatever the file
system and the plan, what is written holds nothing static either: it is the line that names the
interpreter, and the script with patches that put other specifiers in place of internal ones. -/
theorem dynamic_iff {entry : Path} (h : build fs names entry = .ok g) (hfile : file ∈ g.files) :
    ∃ cs all, g.treeFor file = .ok (SourceTree.read .plain cs) ∧
      allDependencies (SourceTree.read .plain cs) = .ok all ∧
      (file.format = .dynamic ↔
        file.mechanism = .required ∨ file.mechanism = .entry ∧
          (Format.ofName? file.path.text = some .dynamic ∨
            Format.ofName? file.path.text = none ∧
              hasModuleSyntax (SourceTree.read .plain cs) = false ∧
              ∀ e ∈ all, e.mechanism ≠ .imported)) ∧
      (file.format = .dynamic → hasModuleSyntax (SourceTree.read .plain cs) = false →
        ∀ (fs' : FileSystem) (plan : Plan) (targets : SpecifierTargets),
          plan.specifierTargets g file = .ok targets →
          ∃ (sites : List Site) (patches : List Patch),
            fileOutput fs' g plan file
              = .ok (outputHeader ++ spliced cs patches (fun _ ↦ []) 0 (Utf8.size cs)) ∧
            sites.map (fun s ↦ ⟨s.1.value, s.2⟩) = all.filter Edge.isInternal ∧
            Held (SourceTree.read .plain cs) sites ∧ Relinks cs targets sites patches) := by
  obtain ⟨cs, all, htree, hall, hformat⟩ := exists_read_of_mem h hfile
  refine ⟨cs, all, htree, hall, ?_, ?_⟩
  · rw [hformat]
    exact chooseFormat_eq_dynamic_iff
  · intro hdynamic hnone fs' plan targets htargets
    exact fileOutput_of_not_hasModuleSyntax (over_read .plain cs) (isUntyped_read cs) hnone htree
      hall hdynamic htargets fs'

/-- A script that requires another one, which is written as a static file. -/
def requiring : FileSystem where
  entries := [
    (["main.js"], .file (Utf8.encodeChars "require('./b.js');".toList) false),
    (["b.js"], .file (Utf8.encodeChars "export const b = 1;".toList) false)]
  cwd := []

/-- The **graph of `requiring`**: its entry, whose name leaves open what it is, is dynamic; and so is
a file that was required and holds an export. -/
theorem exists_requiring : ∃ g : Graph, build requiring {} (Path.ofText "main.js") = .ok g ∧
    (∃ file ∈ g.files, file.mechanism = .entry ∧ file.format = .dynamic ∧
      Format.ofName? file.path.text = none) ∧
    ∃ file ∈ g.files, file.format = .dynamic ∧ file.mechanism = .required ∧
      ∃ tree, g.treeFor file = .ok tree ∧ hasModuleSyntax tree = true := by
  obtain ⟨g, hg, h⟩ := exists_of_succeedsWith
    (x := build requiring {} (Path.ofText "main.js"))
    (p := fun g : Graph ↦
      (g.files.any fun file : SourceFile ↦
        decide (file.mechanism = .entry) && decide (file.format = .dynamic) &&
          decide (Format.ofName? file.path.text = none)) &&
      g.files.any fun file : SourceFile ↦
        decide (file.format = .dynamic) && decide (file.mechanism = .required) &&
          succeedsWith hasModuleSyntax (g.treeFor file))
    (by decide +kernel)
  simp only [Bool.and_eq_true, List.any_eq_true, decide_eq_true_eq] at h
  obtain ⟨⟨main, hmain, ⟨hentry, hmformat⟩, hname⟩, file, hfile, ⟨hformat, hrequired⟩, htree⟩ := h
  exact ⟨g, hg, ⟨main, hmain, hentry, hmformat, hname⟩, file, hfile, hformat, hrequired,
    exists_of_succeedsWith htree⟩

/-- The entry of `requiring` is dynamic, so **nothing in it is static**. -/
theorem dynamic_requiring : ∃ g : Graph, build requiring {} (Path.ofText "main.js") = .ok g ∧
    ∃ file ∈ g.files, file.mechanism = .entry ∧ file.format = .dynamic ∧
      ∃ tree, g.treeFor file = .ok tree ∧ hasModuleSyntax tree = false := by
  obtain ⟨g, hg, ⟨file, hfile, hmechanism, hformat, hname⟩, -⟩ := exists_requiring
  obtain ⟨cs, all, htree, -, hiff, -⟩ := dynamic_iff hg hfile
  have hnone := hiff.1 hformat
  rw [hmechanism, hname] at hnone
  refine ⟨g, hg, file, hfile, hmechanism, hformat, _, htree, ?_⟩
  simpa using hnone.resolve_left (by decide) |>.2.resolve_left (by decide) |>.2.1

/-- In `requiring` a **dynamic file holds an export**: it was required. -/
theorem dynamic_static_requiring :
    ∃ g : Graph, build requiring {} (Path.ofText "main.js") = .ok g ∧
      ∃ file ∈ g.files, file.format = .dynamic ∧ file.mechanism = .required ∧
        ∃ tree, g.treeFor file = .ok tree ∧ hasModuleSyntax tree = true := by
  obtain ⟨g, hg, -, file, hfile, hformat, hrequired, htree⟩ := exists_requiring
  exact ⟨g, hg, file, hfile, hformat, hrequired, htree⟩

end Graph

end ScriptTree
