import ScriptTree.Proofs.EveryOrder
import ScriptTree.Proofs.Strays

/-!
# The output as a mirror of the source

The output directory of a plan **mirrors** the common root: what lies below the one is shown below
the other under the same names. A file is written where the mirror shows the path that it would have
beside itself, *renamed* to the extension of its format. How the targets of two files lie to each
other can therefore be seen in the source, and two things that a plan does not refuse can be told
exactly.

The first is a new specifier that leads to the output of another file than the one that is meant.
The mechanism alone decides on the extension, so the specifier leads to whatever is planned at the
path of the target with that extension. This is the target itself unless the reference is one of the
conflicts of the graph. In a conflict it is the target of a sibling that has the same stem and the
other format; if there is no such sibling, nothing is planned there.

The second is a target on the way to another one. This happens exactly when the other file lies in
or below a directory that has the name under which the first one is written, and then in no order of
writing all files are written. If it does not happen, a file is missing in the end only where its
text could not be rendered.

## Main results

* `Plan.targetFor_eq_mirrored`: where a file is written.
* `Plan.lands_exactly`: to whose output a new specifier leads.
* `Plan.bars_exactly`: when a target lies on the way to another one, and what comes of it.
-/

namespace ScriptTree

open List Option

namespace Path

variable {p q : Path} {name : Text} {names more : List Text}

/-- Below one path, paths lie **below each other** as their names do. -/
theorem isBelow_append_iff (p : Path) :
    (p.append more).isBelow (p.append names) = true ↔ names <+: more := by
  rw [isBelow_iff]
  exact ⟨fun h ↦ (prefix_append_right_inj p.parts).1 h.2,
    fun h ↦ ⟨rfl, (prefix_append_right_inj p.parts).2 h⟩⟩

theorem append_right_injective (p : Path) : Function.Injective p.append := by
  intro names more h
  exact append_cancel_left (congrArg Path.parts h)

theorem child_inj {other : Text} : p.child name = q.child other ↔ p = q ∧ name = other := by
  obtain ⟨a, parts⟩ := p
  obtain ⟨b, parts'⟩ := q
  simp only [child, mk.injEq, append_singleton_inj, and_assoc]

@[simp] theorem parent_child (p : Path) (name : Text) : (p.child name).parent = p := by
  simp [parent, child]

end Path

theorem Format.extension_injective : Function.Injective Format.extension := by
  intro format format' h
  cases format <;> cases format' <;> first | rfl | exact absurd h (by decide)

namespace SourceFile

variable {file other : SourceFile} {format format' : Format}

/-- The path **beside** a file under its name with the extension of a format. -/
def renamed (file : SourceFile) (format : Format) : Path :=
  file.directory.child (Path.stem file.path.name ++ format.extension)

/-- Two files are renamed **alike** when they are siblings with one stem and get one format. -/
theorem renamed_eq_iff :
    file.renamed format = other.renamed format' ↔
      file.directory = other.directory ∧ Path.stem file.path.name = Path.stem other.path.name ∧
        format = format' := by
  have hlength : format.extension.length = format'.extension.length := by
    cases format <;> cases format' <;> decide
  rw [renamed, renamed, Path.child_inj]
  refine and_congr_right' ⟨fun h ↦ ?_, ?_⟩
  · obtain ⟨hstem, hextension⟩ := append_inj' h hlength
    exact ⟨hstem, Format.extension_injective hextension⟩
  · rintro ⟨hstem, rfl⟩
    rw [hstem]

/-- A file **bars** another one: the other lies in or below a directory that has the name under
which the file is written. -/
def Bars (file other : SourceFile) : Prop :=
  other.directory.isBelow (file.renamed file.format) = true

instance (file other : SourceFile) : Decidable (file.Bars other) :=
  inferInstanceAs (Decidable (_ = _))

end SourceFile

namespace Plan

variable {plan : Plan} {p q : Path}

/-! ### The mirror -/

/-- Where the output **shows** a path below the root. -/
def mirrored (plan : Plan) (p : Path) : Path :=
  plan.outputDirectory.append (p.parts.drop plan.root.parts.length)

theorem mirrored_append (plan : Plan) (names : List Text) :
    plan.mirrored (plan.root.append names) = plan.outputDirectory.append names := by
  simp [mirrored, Path.append]

/-- The mirror keeps what lies **below** what. -/
theorem isBelow_mirrored_iff (hp : p.isBelow plan.root = true) (hq : q.isBelow plan.root = true) :
    (plan.mirrored p).isBelow (plan.mirrored q) = true ↔ p.isBelow q = true := by
  rw [Path.eq_append_of_isBelow hp, Path.eq_append_of_isBelow hq, mirrored_append, mirrored_append,
    Path.isBelow_append_iff, Path.isBelow_append_iff]

/-- The mirror shows different paths at **different** places. -/
theorem mirrored_inj (hp : p.isBelow plan.root = true) (hq : q.isBelow plan.root = true) :
    plan.mirrored p = plan.mirrored q ↔ p = q := by
  rw [Path.eq_append_of_isBelow hp, Path.eq_append_of_isBelow hq, mirrored_append, mirrored_append,
    (Path.append_right_injective _).eq_iff, (Path.append_right_injective _).eq_iff]

theorem mirrored_child (hp : p.isBelow plan.root = true) (name : Text) :
    plan.mirrored (p.child name) = (plan.mirrored p).child name := by
  obtain ⟨-, hparts⟩ := Path.isBelow_iff.1 hp
  simp [mirrored, Path.child, Path.append, drop_append_of_le_length hparts.length_le]

variable {cwd output : Path} {g : Graph} {file other : SourceFile}

theorem isBelow_of_targetOf {out root t : Path} (h : targetOf out root file = .ok t) :
    file.path.isBelow root = true := by
  rw [targetOf] at h
  rw [Path.isBelow]
  cases hrelative : file.path.relativeTo? root with
  | none => simp [hrelative] at h
  | some names => rfl

/-- A file whose path is planned lies **in a directory** below the root, and is written where the
output shows its path with the extension of its format. -/
theorem targetFor_eq_mirrored (hnodup : (g.files.map (·.path)).Nodup)
    (h : make cwd g output = .ok plan) (hfile : file ∈ g.files) :
    file.path = file.directory.child file.path.name ∧
      file.directory.isBelow plan.root = true ∧
      plan.targetFor file.path = .ok (plan.mirrored (file.renamed file.format)) := by
  obtain ⟨-, hkeys, htargets⟩ := make_targets h
  obtain ⟨t, hmem, ht⟩ := htargets file hfile
  have hbelow := isBelow_of_targetOf ht
  rw [targetOf_eq hbelow] at ht
  split at ht
  · cases ht
  · next hroot =>
    have hdirectory := directory_eq hbelow hroot
    have hne : file.path.parts ≠ [] := by
      intro hempty
      refine hroot ?_
      rw [Path.eq_append_of_isBelow hbelow, hempty, drop_nil, Path.append, append_nil]
    refine ⟨?_, ?_, ?_⟩
    · show file.path = ⟨file.path.anchor, file.path.parts.dropLast ++ [file.path.parts.getLastD []]⟩
      rw [getLastD_eq_getLast?, getLast?_eq_some_getLast hne, getD_some,
        dropLast_concat_getLast]
    · rw [hdirectory]
      exact Path.isBelow_iff.2 ⟨rfl, prefix_append _ _⟩
    · have hrenamed : plan.mirrored (file.renamed file.format)
          = place plan.outputDirectory plan.root file := by
        rw [SourceFile.renamed, hdirectory, mirrored_child, mirrored_append, place]
        exact Path.isBelow_iff.2 ⟨rfl, prefix_append _ _⟩
      rw [targetFor, lookup_of_mem (hkeys ▸ hnodup) hmem, hrenamed]
      exact ht.symm

theorem isBelow_renamed (h : file.directory.isBelow plan.root = true) (format : Format) :
    (file.renamed format).isBelow plan.root = true :=
  (Path.child_isBelow_iff.2 h).1

/-- The files that are planned at the path of some **renamed** file. -/
theorem targetFor_eq_iff (hnodup : (g.files.map (·.path)).Nodup)
    (h : make cwd g output = .ok plan) (hfile : file ∈ g.files) (hother : other ∈ g.files)
    (format : Format) :
    plan.targetFor other.path = .ok (plan.mirrored (file.renamed format)) ↔
      other.directory = file.directory ∧ Path.stem other.path.name = Path.stem file.path.name ∧
        other.format = format := by
  obtain ⟨-, hbelow, -⟩ := targetFor_eq_mirrored hnodup h hfile
  obtain ⟨-, hbelow', htarget⟩ := targetFor_eq_mirrored hnodup h hother
  rw [htarget, Except.ok.injEq, mirrored_inj (isBelow_renamed hbelow' _) (isBelow_renamed hbelow _),
    SourceFile.renamed_eq_iff]

/-! ### Where new specifiers lead -/

/-- A file of a planned graph is written into the directory in which the output **shows** its
own. -/
theorem writes_mirrored (hcwd : cwd.IsProper) {output : Text} (htraced : Graph.Traced [] g)
    (h : make cwd g (Path.ofText output) = .ok plan) (hfile : file ∈ g.files) :
    plan.Writes file (plan.mirrored file.directory) file.path.name := by
  obtain ⟨hpath, hbelow, htarget⟩ := targetFor_eq_mirrored htraced.nodup h hfile
  have hproper := htraced.paths file hfile
  have hout : plan.outputDirectory.IsProper :=
    (make_targets h).1 ▸ Path.isProper_absolute hcwd output
  have hname : file.path.name ∈ (file.directory.child file.path.name).parts :=
    mem_append_right _ (mem_singleton_self _)
  rw [← hpath] at hname
  refine ⟨hout.append fun name hname ↦ ?_, rfl, hproper.names _ hname, ?_⟩
  · exact hproper.parent.names name (mem_of_mem_drop hname)
  · rw [htarget, SourceFile.renamed, mirrored_child hbelow]

variable {fs : FileSystem} {names : MarkupNames} {entry output : Text} {e : Edge}

/-- **Where an edge leads** in the output: to where its target would be written in the format that
the mechanism asks for. -/
theorem exists_specifier (hfs : fs.WellNamed)
    (hbuild : Graph.build fs names (Path.ofText entry) = .ok g)
    (hplan : make fs.here g (Path.ofText output) = .ok plan) (hfile : file ∈ g.files)
    (he : e ∈ file.internalEdges) :
    ∃ target ∈ g.files, ∃ source : Path, ∃ targets : SpecifierTargets, ∃ specifier : Text,
      g.dependency file e.specifier = some target ∧ plan.targetFor file.path = .ok source ∧
      plan.specifierTargets g file = .ok targets ∧
      targets.lookup (e.specifier, e.mechanism) = some specifier ∧
      dependencyPath source.parent specifier
        = plan.mirrored (target.renamed (Format.forMechanism e.mechanism)) := by
  have htraced := Graph.traced_build hfs hbuild
  have hwrites (file) (hfile : file ∈ g.files) :=
    writes_mirrored hfs.isProper_here htraced hplan hfile
  have hsource := hwrites file hfile
  obtain ⟨targets, htargets, hlookup⟩ := exists_specifierTargets hsource.target fun e he ↦ by
    obtain ⟨target, htarget, hdependency⟩ := htraced.exists_dependency hfile he
    exact ⟨_, (hwrites target htarget).specifierTarget hdependency _⟩
  obtain ⟨target, htarget, hdependency⟩ := htraced.exists_dependency hfile he
  have hgoal := hwrites target htarget
  refine ⟨target, htarget, _, targets, _, hdependency, hsource.target, htargets,
    hlookup e he _ (hgoal.specifierTarget hdependency _), ?_⟩
  obtain ⟨-, hbelow, -⟩ := targetFor_eq_mirrored htraced.nodup hplan htarget
  rw [Path.parent_child,
    dependencyPath_plannedSpecifier (hgoal.isProper_asked e) hsource.proper rfl,
    SourceFile.renamed, mirrored_child hbelow]
  rfl

end Plan

namespace Graph

variable {fs : FileSystem} {names : MarkupNames} {g : Graph} {file target : SourceFile} {e : Edge}
  {start : Frame} {order : List Frame}

/-- The reference of an edge is a **conflict** exactly when the edge needs another format than its
target has. -/
theorem Followed.mem_conflicts_iff (h : Followed fs names start order [] g) (hfile : file ∈ g.files)
    (he : e ∈ file.internalEdges) (htarget : g.dependency file e.specifier = some target) :
    ⟨target.path, target.format, e.mechanism, some file.path, some e.specifier⟩ ∈ g.conflicts ↔
      Format.forMechanism e.mechanism ≠ target.format := by
  rw [h.conflicts, mem_filterMap]
  constructor
  · rintro ⟨f, -, hf⟩
    obtain ⟨known, -, hconflict⟩ := bind_eq_some_iff.1 hf
    rw [Frame.conflict?] at hconflict
    split at hconflict
    · cases hconflict
    · next hne =>
      obtain ⟨-, hformat, hmechanism, -⟩ := Conflict.mk.inj (Option.some.inj hconflict)
      rw [← hformat, ← hmechanism]
      exact fun heq ↦ hne (.inr heq)
  · intro hne
    have hreference := mem_references hfile he
    refine ⟨file.reference e, h.mem_order_iff.2 (.inr hreference), ?_⟩
    have hlookup : g.lookup (file.reference e).rawPath = some target := htarget
    rw [hlookup, bind_some, conflict?_reference (h.ne_entry hreference),
      SourceFile.mismatch?, if_neg hne]

end Graph

namespace Plan

variable {fs : FileSystem} {names : MarkupNames} {entry output : Text} {g : Graph} {plan : Plan}
  {file : SourceFile} {e : Edge}

/-- **To whose output a new specifier leads.** Read in the directory into which the importing file
is written, the new specifier of an edge leads to the target of exactly those files that are
siblings of the file that is meant, with the same stem, and have the format that the mechanism asks
for. The file that is meant is one of them exactly when the reference is not a conflict of the
graph. -/
theorem lands_exactly (hfs : fs.WellNamed)
    (hbuild : Graph.build fs names (Path.ofText entry) = .ok g)
    (hplan : make fs.here g (Path.ofText output) = .ok plan) (hfile : file ∈ g.files)
    (he : e ∈ file.internalEdges) :
    ∃ target ∈ g.files, ∃ source : Path, ∃ targets : SpecifierTargets, ∃ specifier : Text,
      g.dependency file e.specifier = some target ∧ plan.targetFor file.path = .ok source ∧
      plan.specifierTargets g file = .ok targets ∧
      targets.lookup (e.specifier, e.mechanism) = some specifier ∧
      (∀ other ∈ g.files,
        plan.targetFor other.path = .ok (dependencyPath source.parent specifier) ↔
          other.directory = target.directory ∧
            Path.stem other.path.name = Path.stem target.path.name ∧
            other.format = Format.forMechanism e.mechanism) ∧
      (plan.targetFor target.path = .ok (dependencyPath source.parent specifier) ↔
        ⟨target.path, target.format, e.mechanism, some file.path, some e.specifier⟩
          ∉ g.conflicts) := by
  obtain ⟨order, horder⟩ := Graph.exists_followed hbuild
  obtain ⟨target, htarget, source, targets, specifier, hdependency, hsource, htargets, hlookup,
    hleads⟩ := exists_specifier hfs hbuild hplan hfile he
  refine ⟨target, htarget, source, targets, specifier, hdependency, hsource, htargets, hlookup, ?_,
    ?_⟩
  · intro other hother
    rw [hleads, targetFor_eq_iff horder.paths hplan htarget hother]
  · rw [hleads, targetFor_eq_iff horder.paths hplan htarget htarget,
      horder.mem_conflicts_iff hfile he hdependency, not_not]
    exact ⟨fun h ↦ h.2.2.symm, fun h ↦ ⟨rfl, rfl, h.symm⟩⟩

/-- Two scripts with the same stem, loaded in both formats, and one of them by both mechanisms. -/
def twins : FileSystem where
  entries := [
    (["main.js"],
      .file (Utf8.encodeChars
        "require('./a.ts'); require('./a.js'); import './a.ts'".toList) false),
    (["a.ts"], .file [] false),
    (["a.js"], .file [] false)]
  cwd := []

/-- The edge of `twins` that asks for the other format than its target has. -/
def crossed : Edge := ⟨"./a.ts", .required⟩

theorem wellNamed_twins : twins.WellNamed := ⟨by decide, by decide⟩

/-- The graph and the plan of `twins`, as far as the crossed edge goes. -/
theorem exists_crossed : ∃ g plan file target other,
    Graph.build twins {} (Path.ofText "main.js") = .ok g ∧
      make twins.here g (Path.ofText "out") = .ok plan ∧ file ∈ g.files ∧
      crossed ∈ file.internalEdges ∧ g.dependency file crossed.specifier = some target ∧
      other ∈ g.files ∧ target.path = ⟨.root, ["a.ts"]⟩ ∧ target.format = .static ∧
      other.path = ⟨.root, ["a.js"]⟩ ∧ other.format = .dynamic := by
  obtain ⟨g, hg, h⟩ := exists_of_succeedsWith
    (x := Graph.build twins {} (Path.ofText "main.js"))
    (p := fun g ↦ succeedsWith (fun _ ↦ true) (make twins.here g (Path.ofText "out")) &&
      g.files.any (fun file : SourceFile ↦ decide (crossed ∈ file.internalEdges) &&
        (g.dependency file crossed.specifier).any fun target : SourceFile ↦
          decide (target.path = ⟨.root, ["a.ts"]⟩ ∧ target.format = .static)) &&
      g.files.any fun other : SourceFile ↦
        decide (other.path = ⟨.root, ["a.js"]⟩ ∧ other.format = .dynamic)) (by decide +kernel)
  simp only [Bool.and_eq_true, List.any_eq_true, Option.any_eq_true, decide_eq_true_eq] at h
  obtain ⟨⟨hplan, file, hfile, he, target, htarget, hpath, hformat⟩, other, hother, hpath',
    hformat'⟩ := h
  obtain ⟨plan, hplan, -⟩ := exists_of_succeedsWith hplan
  exact ⟨g, plan, file, target, other, hg, hplan, hfile, he, htarget, hother, hpath, hformat,
    hpath', hformat'⟩

/-- In `twins` the crossed edge is a conflict, and its new specifier leads to the output of the
**other** script. -/
theorem lands_crossed : ∃ g plan file target other source targets specifier,
    Graph.build twins {} (Path.ofText "main.js") = .ok g ∧
      make twins.here g (Path.ofText "out") = .ok plan ∧ file ∈ g.files ∧
      crossed ∈ file.internalEdges ∧ g.dependency file crossed.specifier = some target ∧
      other ∈ g.files ∧ other.path = ⟨.root, ["a.js"]⟩ ∧
      plan.targetFor file.path = .ok source ∧ plan.specifierTargets g file = .ok targets ∧
      targets.lookup (crossed.specifier, crossed.mechanism) = some specifier ∧
      plan.targetFor other.path = .ok (dependencyPath source.parent specifier) ∧
      ⟨target.path, target.format, crossed.mechanism, some file.path, some crossed.specifier⟩
        ∈ g.conflicts := by
  obtain ⟨g, plan, file, target, other, hg, hplan, hfile, he, htarget, hother, hpath, hformat,
    hpath', hformat'⟩ := exists_crossed
  obtain ⟨target', hmem, source, targets, specifier, htarget', hsource, htargets, hlookup, hlands,
    hconflict⟩ := lands_exactly wellNamed_twins hg hplan hfile he
  obtain rfl : target' = target := Option.some.inj (htarget'.symm.trans htarget)
  have hmiss : plan.targetFor target'.path ≠ .ok (dependencyPath source.parent specifier) := by
    rw [Ne, hlands target' hmem, hformat]
    exact fun h ↦ absurd h.2.2 (by decide)
  refine ⟨g, plan, file, target', other, source, targets, specifier, hg, hplan, hfile, he, htarget,
    hother, hpath', hsource, htargets, hlookup, (hlands other hother).2 ?_,
    not_not.1 (mt hconflict.2 hmiss)⟩
  rw [SourceFile.directory, SourceFile.directory, hpath, hpath', hformat']
  decide

/-- A new specifier may lead to the output of **another file** than the one that is meant. -/
theorem lands_on_other : ∃ g plan file target other source targets specifier,
    Graph.build twins {} (Path.ofText "main.js") = .ok g ∧
      make twins.here g (Path.ofText "out") = .ok plan ∧ file ∈ g.files ∧
      crossed ∈ file.internalEdges ∧ g.dependency file crossed.specifier = some target ∧
      other ∈ g.files ∧ plan.targetFor file.path = .ok source ∧
      plan.specifierTargets g file = .ok targets ∧
      targets.lookup (crossed.specifier, crossed.mechanism) = some specifier ∧
      plan.targetFor other.path = .ok (dependencyPath source.parent specifier) ∧
      plan.targetFor target.path ≠ .ok (dependencyPath source.parent specifier) := by
  obtain ⟨g, plan, file, target, other, hg, hplan, hfile, he, htarget, hother, hpath, hformat,
    hpath', hformat'⟩ := exists_crossed
  have hnodup := (Graph.traced_build wellNamed_twins hg).nodup
  obtain ⟨target', hmem, source, targets, specifier, htarget', hsource, htargets, hlookup,
    hleads⟩ := exists_specifier wellNamed_twins hg hplan hfile he
  obtain rfl : target' = target := Option.some.inj (htarget'.symm.trans htarget)
  refine ⟨g, plan, file, target', other, source, targets, specifier, hg, hplan, hfile, he, htarget,
    hother, hsource, htargets, hlookup, ?_, ?_⟩
  · rw [hleads, targetFor_eq_iff hnodup hplan hmem hother, SourceFile.directory,
      SourceFile.directory, hpath, hpath', hformat']
    decide
  · rw [Ne, hleads, targetFor_eq_iff hnodup hplan hmem hmem, hformat]
    exact fun h ↦ absurd h.2.2 (by decide)

/-! ### Targets on the way to others -/

/-- The plan for an output directory that is given as text **lays out** the graph there. -/
theorem laysOut_of_make_ofText {cwd : Path} (hcwd : cwd.IsProper) (htraced : Graph.Traced [] g)
    (h : make cwd g (Path.ofText output) = .ok plan) : plan.LaysOut g plan.outputDirectory := by
  have hproper := Path.isProper_absolute hcwd output
  have hmake : make cwd g (Path.absolute cwd (Path.ofText output)) = .ok plan := by
    rw [← h, make, make, hproper.absolute_eq]
  rw [(make_targets h).1]
  exact laysOut_of_make htraced hproper hmake

section Bars

variable {cwd out : Path} {other : SourceFile}

/-- One file bars another exactly when its target is **on the way** to the other's. -/
theorem isBelow_targets_iff (hnodup : (g.files.map (·.path)).Nodup)
    (h : make cwd g out = .ok plan) (hfile : file ∈ g.files) (hother : other ∈ g.files) :
    (plan.mirrored (other.renamed other.format)).isBelow
        (plan.mirrored (file.renamed file.format)) = true ∧
      plan.mirrored (other.renamed other.format) ≠ plan.mirrored (file.renamed file.format) ↔
      file.Bars other := by
  obtain ⟨-, hbelow, -⟩ := targetFor_eq_mirrored hnodup h hfile
  obtain ⟨-, hbelow', -⟩ := targetFor_eq_mirrored hnodup h hother
  have hfile := isBelow_renamed hbelow file.format
  have hother := isBelow_renamed hbelow' other.format
  rw [isBelow_mirrored_iff hother hfile, Ne, mirrored_inj hother hfile]
  exact Path.child_isBelow_iff

/-- No place leads through another exactly when **no file bars another**. -/
theorem clashFree_iff {cleared : FileSystem} (v : Vacancy cleared plan.outputDirectory)
    (hlaid : plan.LaysOut g plan.outputDirectory) (h : make cwd g out = .ok plan) :
    v.ClashFree g plan ↔ ∀ file ∈ g.files, ∀ other ∈ g.files, ¬ file.Bars other := by
  refine forall₂_congr fun file hfile ↦ forall₂_congr fun other hother ↦ ?_
  have htarget (file) (hfile : file ∈ g.files) :
      plan.mirrored (file.renamed file.format)
        = plan.outputDirectory.append (plan.namesOf file.path) := by
    obtain ⟨-, -, htarget⟩ := targetFor_eq_mirrored hlaid.paths h hfile
    exact Except.ok.inj (htarget.symm.trans (hlaid.targetFor hfile))
  rw [← isBelow_targets_iff hlaid.paths h hfile hother, htarget file hfile, htarget other hother,
    Path.isBelow_append_iff, (Path.append_right_injective _).ne_iff]
  simp only [Vacancy.placeOf, append_assoc, ne_eq, append_cancel_left_eq]
  constructor
  · rintro hclash ⟨⟨names, heq⟩, hne⟩
    refine hclash names ?_ heq.symm
    rintro rfl
    exact hne (by rw [← heq, append_nil])
  · rintro hbars names hnames heq
    exact hbars ⟨⟨names, heq.symm⟩, fun hself ↦ hnames (by simpa [hself] using heq)⟩

end Bars

/-- **Targets on the way to others.** In a planned graph the target of one file lies strictly above
that of another exactly when the first bars the second, and then there is a directory in the source
under the name with which the first is written. Whatever file system the output is written to, in
whatever order the files are written: if some file bars another, a file fails to be written; if none
does, a file fails to be written only where it cannot be rendered. -/
theorem bars_exactly (hfs : fs.WellNamed)
    (hbuild : Graph.build fs names (Path.ofText entry) = .ok g)
    (hplan : make fs.here g (Path.ofText output) = .ok plan) :
    (∀ file ∈ g.files, ∀ other ∈ g.files, ∃ t t' : Path,
      plan.targetFor file.path = .ok t ∧ plan.targetFor other.path = .ok t' ∧
      (t'.isBelow t = true ∧ t' ≠ t ↔ file.Bars other) ∧
      (file.Bars other → fs.isDirectory (file.renamed file.format) = true)) ∧
    ∀ (cleared : FileSystem) (v : Vacancy cleared plan.outputDirectory), cleared.IsTree →
      ∀ results final, Interleaved (emitAll g plan) cleared results final →
        ((∃ file ∈ g.files, ∃ other ∈ g.files, file.Bars other) → ∃ e, .error e ∈ results) ∧
        ((∀ file ∈ g.files, ∀ other ∈ g.files, ¬ file.Bars other) →
          ∀ (i : Nat) file e, g.files[i]? = some file → results[i]? = some (.error e) →
            ∃ seen : FileSystem, seen.eraseTree v.root = cleared ∧
              ∀ bytes, ¬ Renders seen g plan file bytes) := by
  have htraced := Graph.traced_build hfs hbuild
  have hlaid := laysOut_of_make_ofText hfs.isProper_here htraced hplan
  refine ⟨fun file hfile other hother ↦ ?_, fun cleared v hcleared results final h ↦ ⟨?_, ?_⟩⟩
  · obtain ⟨-, -, htarget⟩ := targetFor_eq_mirrored htraced.nodup hplan hfile
    obtain ⟨-, -, htarget'⟩ := targetFor_eq_mirrored htraced.nodup hplan hother
    refine ⟨_, _, htarget, htarget', isBelow_targets_iff htraced.nodup hplan hfile hother, ?_⟩
    exact FileSystem.isDirectory_of_isBelow (htraced.paths other hother).absolute
      (Graph.isFile_of_build hbuild hother)
  · -- If every task had succeeded, a file would stand in the way of another.
    rintro ⟨file, hfile, other, hother, hbars⟩
    by_contra hall
    have hok : ∀ r ∈ results, r = .ok () := by
      intro r hr
      cases r with
      | ok => rfl
      | error e => exact absurd ⟨e, hr⟩ hall
    obtain ⟨content, hstands, -⟩ := Vacancy.exists_stands (v := v) hlaid hcleared h hok
    exact (clashFree_iff v hlaid hplan).1 hstands.clashFree file hfile other hother hbars
  · intro hbars i file e hfile hi
    have hfree := (clashFree_iff v hlaid hplan).2 hbars
    exact Vacancy.not_renders_of_error hlaid hcleared hfree h hfile hi

theorem isTree_clashing : clashing.IsTree :=
  ⟨wellNamed_clashing, by decide, FileSystem.nested_of_entries (by decide)⟩

/-- The output directory of `clashing`, where nothing stands yet. -/
def clashingVacancy : Vacancy clashing ⟨.root, ["out"]⟩ where
  above := []
  first := "out"
  rest := []
  base := []
  parts := rfl
  absolute := rfl
  proper := by decide
  found := rfl
  free := by decide

/-- In `clashing` one script bars another. -/
theorem exists_barred : ∃ g plan file other,
    Graph.build clashing {} (Path.ofText "main.js") = .ok g ∧
      make clashing.here g (Path.ofText "out") = .ok plan ∧ file ∈ g.files ∧ other ∈ g.files ∧
      file.Bars other := by
  obtain ⟨g, hg, h⟩ := exists_of_succeedsWith
    (x := Graph.build clashing {} (Path.ofText "main.js"))
    (p := fun g ↦ succeedsWith (fun _ ↦ true) (make clashing.here g (Path.ofText "out")) &&
      g.files.any fun file ↦ g.files.any fun other ↦ decide (file.Bars other)) (by decide +kernel)
  simp only [Bool.and_eq_true, List.any_eq_true, decide_eq_true_eq] at h
  obtain ⟨hplan, file, hfile, other, hother, hbars⟩ := h
  obtain ⟨plan, hplan, -⟩ := exists_of_succeedsWith hplan
  exact ⟨g, plan, file, other, hg, hplan, hfile, hother, hbars⟩

/-- The files of `clashing` **cannot all be written**, in whatever order. -/
theorem bars_clashing : ∃ g plan file other t t',
    Graph.build clashing {} (Path.ofText "main.js") = .ok g ∧
      make clashing.here g (Path.ofText "out") = .ok plan ∧ file ∈ g.files ∧ other ∈ g.files ∧
      plan.targetFor file.path = .ok t ∧ plan.targetFor other.path = .ok t' ∧
      t'.isBelow t = true ∧ t' ≠ t ∧ clashing.isDirectory (file.renamed file.format) = true ∧
      ∀ results final, Interleaved (emitAll g plan) clashing results final →
        ∃ e, .error e ∈ results := by
  obtain ⟨g, plan, file, other, hg, hplan, hfile, hother, hbars⟩ := exists_barred
  have hall := bars_exactly wellNamed_clashing hg hplan
  obtain ⟨t, t', ht, ht', hbelow, hdirectory⟩ := hall.1 file hfile other hother
  have hout : plan.outputDirectory = ⟨.root, ["out"]⟩ := (make_targets hplan).1
  refine ⟨g, plan, file, other, t, t', hg, hplan, hfile, hother, ht, ht', (hbelow.2 hbars).1,
    (hbelow.2 hbars).2, hdirectory hbars, fun results final h ↦ ?_⟩
  exact (hall.2 clashing (hout ▸ clashingVacancy) isTree_clashing results final h).1
    ⟨file, hfile, other, hother, hbars⟩

/-- A plan may hold a target **above** another one. -/
theorem exists_target_above : ∃ g plan file other t t',
    Graph.build clashing {} (Path.ofText "main.js") = .ok g ∧
      make clashing.here g (Path.ofText "out") = .ok plan ∧ file ∈ g.files ∧ other ∈ g.files ∧
      plan.targetFor file.path = .ok t ∧ plan.targetFor other.path = .ok t' ∧
      t'.isBelow t = true ∧ t' ≠ t := by
  obtain ⟨g, plan, file, other, hg, hplan, hfile, hother, hbars⟩ := exists_barred
  have hnodup := (Graph.traced_build wellNamed_clashing hg).nodup
  obtain ⟨-, -, ht⟩ := targetFor_eq_mirrored hnodup hplan hfile
  obtain ⟨-, -, ht'⟩ := targetFor_eq_mirrored hnodup hplan hother
  obtain ⟨hbelow, hne⟩ := (isBelow_targets_iff hnodup hplan hfile hother).2 hbars
  exact ⟨g, plan, file, other, _, _, hg, hplan, hfile, hother, ht, ht', hbelow, hne⟩

end Plan

end ScriptTree
