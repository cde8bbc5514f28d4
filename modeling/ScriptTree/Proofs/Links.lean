import ScriptTree.Plan.Basic
import ScriptTree.Proofs.Explore

/-!
# Where new specifiers lead

A plan gives every file of a graph a target below the output directory, and every internal edge a
new specifier. Read in the directory of the importing target, the new specifier leads to the target
of the file that the edge leads to, with the extension that the mechanism asks for.

A target may lie on the way to another one: a file can be planned where a directory is needed. Seen
from below such a place, the way there is made of steps up only, and the new specifier shows no
extension at all. `Plan.linked_of_build` says that this is the only exception.

## Main results

* `Plan.exists_target`: where a file of a graph is written.
* `dependencyPath_plannedSpecifier`: where a new specifier leads.
* `endsWith_plannedSpecifier_iff`: when it shows its extension.
* `Plan.linked_of_build`: all edges of all files.
-/

namespace ScriptTree

open List
open Path (IsProper IsProperName stem)

/-! ### New specifiers -/

section PlannedSpecifier

variable {q dir : Path}

/-- The **new specifier** of a target, seen from a directory: an absolute one stays absolute. -/
def plannedSpecifier (specifier : Text) (q dir : Path) : Text :=
  if specifier.startsWith "/" then q.text else relativeSpecifier q dir

theorem relativeSpecifier_eq (q dir : Path) :
    relativeSpecifier q dir = (q.relative dir).text ∧
        Text.startsWith (q.relative dir).text "../" = true ∨
      relativeSpecifier q dir = ("./" : Text) ++ (q.relative dir).text := by
  unfold relativeSpecifier
  simp only
  split
  · next h => exact .inl ⟨rfl, h⟩
  · exact .inr rfl

theorem startsWith_plannedSpecifier (hq : q.IsProper) (specifier : Text) :
    (plannedSpecifier specifier q dir).startsWith "./" = true ∨
      (plannedSpecifier specifier q dir).startsWith "../" = true ∨
      (plannedSpecifier specifier q dir).startsWith "/" = true := by
  unfold plannedSpecifier
  split
  · -- The text of an absolute path starts with its anchor.
    right; right
    obtain ⟨a, parts⟩ := q
    have habsolute := hq.absolute
    cases a with
    | relative => simp [Path.isAbsolute] at habsolute
    | root => rfl
    | doubleRoot => rfl
  · rcases relativeSpecifier_eq q dir with ⟨heq, hup⟩ | heq
    · exact .inr (.inl (heq ▸ hup))
    · left
      rw [heq]
      rfl

/-- A step to the same place in front of a relative path changes nothing. -/
theorem ofText_dot_append {t : Text} (h : (Path.ofText t).anchor = .relative) :
    Path.ofText (("./" : Text) ++ t) = Path.ofText t := by
  have hanchor : Path.anchorOf t = .relative := h
  unfold Path.ofText
  rw [hanchor]
  rfl

/-- The new specifier that is not absolute spells **the way** to the target. -/
theorem ofText_relativeSpecifier (hq : q.IsProper) (hdir : dir.IsProper) :
    Path.ofText (relativeSpecifier q dir) = q.relative dir := by
  have hread : Path.ofText (q.relative dir).text = q.relative dir :=
    Path.ofText_text fun name ↦ Path.isStep_of_mem_relativeParts hq hdir
  rcases relativeSpecifier_eq q dir with ⟨heq, -⟩ | heq
  · rw [heq, hread]
  · rw [heq, ofText_dot_append (by rw [hread]; rfl), hread]

/-- A new specifier, read in its directory, **leads to the target**. -/
theorem dependencyPath_plannedSpecifier (hq : q.IsProper) (hdir : dir.IsProper)
    (hanchor : dir.anchor = q.anchor) (specifier : Text) :
    dependencyPath dir (plannedSpecifier specifier q dir) = q := by
  unfold dependencyPath plannedSpecifier
  split
  · rw [Path.ofText_text fun name hname ↦ (hq.names name hname).1, Path.join, if_pos hq.absolute,
      hq.normal_eq]
  · rw [ofText_relativeSpecifier hq hdir]
    exact Path.normal_append_relativeParts hq hdir hanchor

/-! ### The extension at the end -/

variable {names : List Text} {name ext : Text}

theorem isSuffix_text_append (a : Anchor) (names : List Text) (name : Text) :
    name <:+ (⟨a, names ++ [name]⟩ : Path).text := by
  have htext : (⟨a, names ++ [name]⟩ : Path).text
      = Path.anchorText a ++ Text.join "/" (names ++ [name]) := by simp [Path.text]
  rw [htext]
  exact (Text.isSuffix_join _ _ _).trans (suffix_append _ _)

theorem isSuffix_relativeSpecifier {t : Text} (h : t <:+ (q.relative dir).text) :
    t <:+ relativeSpecifier q dir := by
  rcases relativeSpecifier_eq q dir with ⟨heq, -⟩ | heq
  · exact heq ▸ h
  · exact heq ▸ h.trans (suffix_append _ _)

/-- Not seen from below, the way to a target **ends with its name**. -/
theorem name_isSuffix_relativeSpecifier (hq : q.IsProper) (hdir : dir.IsProper)
    (hparts : q.parts = names ++ [name]) (h : ¬ q.parts <+: dir.parts) :
    name <:+ relativeSpecifier q dir := by
  have hshared : Path.sharedLength dir.parts q.parts ≤ names.length := by
    have hlt := Nat.lt_of_not_le (mt Path.length_le_sharedLength_iff.1 h)
    rw [hparts] at hlt ⊢
    simp only [length_append, length_singleton] at hlt
    omega
  have hdrop : q.parts.drop (Path.sharedLength dir.parts q.parts)
      = names.drop (Path.sharedLength dir.parts q.parts) ++ [name] := by
    generalize Path.sharedLength dir.parts q.parts = n at hshared ⊢
    rw [hparts, drop_append_of_le_length hshared]
  refine isSuffix_relativeSpecifier ?_
  rw [Path.relative, Path.relativeParts_eq hq hdir, hdrop, ← append_assoc]
  exact isSuffix_text_append _ _ _

/-- Seen from below, the way to a target is **steps up** only, and ends with a dot. -/
theorem dot_isSuffix_relativeSpecifier (hq : q.IsProper) (hdir : dir.IsProper)
    (h : q.parts <+: dir.parts) : [CodePoint.scalar '.'] <:+ relativeSpecifier q dir := by
  refine isSuffix_relativeSpecifier ?_
  have hdrop : q.parts.drop (Path.sharedLength dir.parts q.parts) = [] :=
    drop_eq_nil_of_le (Path.length_le_sharedLength_iff.2 h)
  rw [Path.relative, Path.relativeParts_eq hq hdir, hdrop, append_nil]
  generalize dir.parts.length - Path.sharedLength dir.parts q.parts = n
  cases n with
  | zero => exact suffix_refl _
  | succ n =>
    rw [replicate_succ']
    exact List.IsSuffix.trans ⟨[.scalar '.'], rfl⟩ (isSuffix_text_append _ _ Path.up)

/-- An extension does not end with a dot. -/
theorem not_isSuffix_of_dot_isSuffix {t : Text} (f : Format)
    (hdot : [CodePoint.scalar '.'] <:+ t) : ¬ f.extension <:+ t := by
  have hlast : ∃ rest, f.extension = rest ++ [CodePoint.scalar 's'] := by
    cases f with
    | static => exact ⟨".mj", by decide⟩
    | dynamic => exact ⟨".cj", by decide⟩
  rintro ⟨before, rfl⟩
  obtain ⟨rest, hrest⟩ := hlast
  obtain ⟨before', heq⟩ := hdot
  rw [hrest, ← append_assoc] at heq
  have := (append_inj' heq rfl).2
  simp at this

/-- **When the extension shows**: unless the target is seen from below. -/
theorem endsWith_plannedSpecifier_iff (hq : q.IsProper) (hdir : dir.IsProper)
    (hanchor : dir.anchor = q.anchor) (f : Format) (hparts : q.parts = names ++ [name])
    (hname : f.extension <:+ name) (specifier : Text) :
    (plannedSpecifier specifier q dir).endsWith f.extension = true ↔
      specifier.startsWith "/" = true ∨ dir.isBelow q = false := by
  have hbelow : dir.isBelow q = false ↔ ¬ q.parts <+: dir.parts := by
    simp [Path.isBelow, Path.relativeTo?, hanchor]
  rw [hbelow, Text.endsWith, isSuffixOf_iff_suffix]
  unfold plannedSpecifier
  split
  · next habsolute =>
    refine iff_of_true ?_ (.inl habsolute)
    obtain ⟨a, parts⟩ := q
    obtain rfl : parts = names ++ [name] := hparts
    exact hname.trans (isSuffix_text_append _ _ _)
  · next habsolute =>
    constructor
    · intro hsuffix
      refine .inr fun hprefix ↦ ?_
      exact not_isSuffix_of_dot_isSuffix f (dot_isSuffix_relativeSpecifier hq hdir hprefix) hsuffix
    · rintro (h | h)
      · exact absurd h habsolute
      · exact hname.trans (name_isSuffix_relativeSpecifier hq hdir hparts h)

end PlannedSpecifier

/-! ### Targets -/

namespace Plan

variable {out root t : Path} {file : SourceFile}

/-- Suffixing a path that ends with a name. -/
theorem suffixed_append (a : Anchor) (names : List Text) (name suffix : Text) :
    suffixed ⟨a, names ++ [name]⟩ suffix = .ok ⟨a, names ++ [stem name ++ suffix]⟩ := by
  rw [suffixed, Path.withSuffix?_append]

/-- **Where a file is written**: in a directory below the output directory, under its name with the
extension of its format. -/
theorem targetOf_eq_ok (h : targetOf out root file = .ok t) :
    ∃ names name, file.path.parts = root.parts ++ (names ++ [name]) ∧
      t = out.append (names ++ [stem name ++ file.format.extension]) := by
  unfold targetOf at h
  split at h
  · simp at h
  · next below hbelow =>
    obtain ⟨p, hp, ht⟩ := bind_eq_ok_iff.1 h
    have hparts : file.path.parts = root.parts ++ below := by
      simp only [Path.relativeTo?, Option.ite_none_right_eq_some, Option.some.injEq] at hbelow
      obtain ⟨⟨-, hprefix⟩, rfl⟩ := hbelow
      exact (prefix_iff_eq_append.1 (List.isPrefixOf_iff_prefix.1 hprefix)).symm
    rcases eq_nil_or_concat below with rfl | ⟨names, name, rfl⟩
    · simp [suffixed, Path.withSuffix?] at hp
    · rw [concat_eq_append] at hp hparts
      rw [suffixed_append, Except.ok.injEq] at hp
      refine ⟨names, name, hparts, ?_⟩
      rw [pure_eq_ok_iff] at ht
      rw [← ht, ← hp]

variable {cwd output : Path} {g : Graph} {plan : Plan}

/-- A plan gives every file a target, in the order of the files. -/
theorem make_targets (h : make cwd g output = .ok plan) :
    plan.outputDirectory = Path.absolute cwd output ∧
      plan.targets.map (·.1) = g.files.map (·.path) ∧
      ∀ file ∈ g.files, ∃ t, (file.path, t) ∈ plan.targets ∧
        targetOf plan.outputDirectory plan.root file = .ok t := by
  obtain ⟨targets, hfold, hplan⟩ := bind_eq_ok_iff.1 h
  rw [pure_eq_ok_iff] at hplan
  subst hplan
  refine ⟨rfl, ?_⟩
  refine foldlM_invariant (P := fun (done : List SourceFile) (ts : List (Path × Path)) ↦
      ts.map (·.1) = done.map (·.path) ∧ ∀ file ∈ done, ∃ t, (file.path, t) ∈ ts ∧
        targetOf (Path.absolute cwd output)
          (commonRoot (startOf (Path.absolute cwd output) g) (g.files.map (·.path))) file = .ok t)
    ?_ g.files [] (by simp) hfold
  rintro done file ts ts' ⟨hkeys, htargets⟩ hadd
  obtain ⟨t, ht, hadd⟩ := bind_eq_ok_iff.1 hadd
  split at hadd
  · simp at hadd
  · rw [pure_eq_ok_iff] at hadd
    subst hadd
    refine ⟨by simp [hkeys], fun other hother ↦ ?_⟩
    rcases mem_append.1 hother with hother | hother
    · obtain ⟨t', hmem, ht'⟩ := htargets other hother
      exact ⟨t', mem_append_left _ hmem, ht'⟩
    · obtain rfl := mem_singleton.1 hother
      exact ⟨t, by simp, ht⟩

/-- Whether a plan **writes** a file into a directory, under a name with the extension of its
format. -/
structure Writes (plan : Plan) (file : SourceFile) (directory : Path) (name : Text) : Prop where
  proper : directory.IsProper
  anchor : directory.anchor = plan.outputDirectory.anchor
  named : IsProperName name
  target : plan.targetFor file.path = .ok (directory.child (stem name ++ file.format.extension))

/-- **Every file** of a planned graph is written somewhere. -/
theorem exists_writes (hcwd : cwd.IsProper) {output : Text} (htraced : Graph.Traced [] g)
    (h : make cwd g (Path.ofText output) = .ok plan) (hfile : file ∈ g.files) :
    ∃ directory name, plan.Writes file directory name := by
  obtain ⟨hout, hkeys, htargets⟩ := make_targets h
  obtain ⟨t, hmem, ht⟩ := htargets file hfile
  obtain ⟨names, name, hparts, rfl⟩ := targetOf_eq_ok ht
  have hproper : ∀ other ∈ names ++ [name], IsProperName other := fun other hother ↦
    (htraced.paths file hfile).names other (hparts ▸ mem_append_right _ hother)
  have houtput : plan.outputDirectory.IsProper := hout ▸ Path.isProper_absolute hcwd output
  refine ⟨plan.outputDirectory.append names, name,
    houtput.append fun other hother ↦ hproper other (mem_append_left _ hother), rfl,
    hproper name (by simp), ?_⟩
  have hnodup : (plan.targets.map (·.1)).Nodup := hkeys ▸ htraced.nodup
  rw [targetFor, lookup_of_mem hnodup hmem]
  simp [Path.append, Path.child]

/-! ### The new specifiers of a file -/

variable {directory source : Path} {name : Text} {target : SourceFile} {e : Edge}

/-- Where an edge leads by its mechanism: the target of a file with the extension that the mechanism
asks for. -/
def asked (directory : Path) (name : Text) (e : Edge) : Path :=
  directory.child (stem name ++ (Format.forMechanism e.mechanism).extension)

theorem Writes.isProper_asked (h : plan.Writes target directory name) (e : Edge) :
    (asked directory name e).IsProper :=
  h.proper.child (h.named.stem_append_extension _)

/-- Putting the extension that is asked for on a target. -/
theorem Writes.withSuffix? (h : plan.Writes target directory name) (e : Edge) :
    (directory.child (stem name ++ target.format.extension)).withSuffix?
      (Format.forMechanism e.mechanism).extension = some (asked directory name e) := by
  rw [Path.child, Path.withSuffix?_append, Path.stem_stem_append_extension h.named.1.ne_nil]
  rfl

/-- The new specifier for an edge to a file that is written. -/
theorem Writes.specifierTarget (h : plan.Writes target directory name)
    (hdependency : g.dependency file e.specifier = some target) (source : Path) :
    plan.specifierTarget g file source e
      = .ok (some (plannedSpecifier e.specifier (asked directory name e) source)) := by
  rw [Plan.specifierTarget, hdependency]
  simp only [h.target, suffixed, h.withSuffix? e, bind, Except.bind, pure]
  rfl

/-- Adding what is found for an edge unless its key is there. -/
def addValue (value : Edge → Text) (found : SpecifierTargets) (e : Edge) : SpecifierTargets :=
  if (found.lookup (e.specifier, e.mechanism)).isSome then found
  else found ++ [((e.specifier, e.mechanism), value e)]

/-- Every edge is found with its value once **all edges** are added. -/
theorem lookup_foldl_addValue {value : Edge → Text} {edges : List Edge} {found : SpecifierTargets}
    (hfound : ∀ e v, found.lookup (e.specifier, e.mechanism) = some v → v = value e) (e : Edge)
    (he : e ∈ edges ∨ (found.lookup (e.specifier, e.mechanism)).isSome) :
    (edges.foldl (addValue value) found).lookup (e.specifier, e.mechanism) = some (value e) := by
  induction edges generalizing found with
  | nil =>
    obtain ⟨v, hv⟩ := Option.isSome_iff_exists.1 (he.resolve_left (by simp))
    rw [foldl_nil, hv, hfound e v hv]
  | cons a edges ih =>
    by_cases ha : (found.lookup (a.specifier, a.mechanism)).isSome
    · rw [foldl_cons, addValue, if_pos ha]
      refine ih hfound ?_
      rcases he with he | he
      · rcases mem_cons.1 he with rfl | he
        · exact .inr ha
        · exact .inl he
      · exact .inr he
    · -- The new pair is found under its own key, and everything else as before.
      rw [foldl_cons, addValue, if_neg ha]
      have hlookup : ∀ b : Edge, (found ++ [((a.specifier, a.mechanism), value a)]).lookup
          (b.specifier, b.mechanism)
            = if b = a then some (value a) else found.lookup (b.specifier, b.mechanism) := by
        intro b
        rw [lookup_append]
        split
        · next hb =>
          subst hb
          rw [Option.not_isSome_iff_eq_none.1 ha]
          simp [List.lookup]
        · next hb =>
          have hkey : ((b.specifier, b.mechanism) == (a.specifier, a.mechanism)) = false := by
            rw [beq_eq_false_iff_ne]
            intro hkey
            exact hb (by cases a; cases b; simp_all)
          simp [List.lookup, hkey]
      refine ih (fun b v hv ↦ ?_) ?_
      · rw [hlookup] at hv
        split at hv
        · next hb =>
          subst hb
          exact (Option.some.inj hv).symm
        · exact hfound b v hv
      · rcases he with he | he
        · rcases mem_cons.1 he with rfl | he
          · right
            rw [hlookup, if_pos rfl]
            rfl
          · exact .inl he
        · right
          rw [hlookup]
          split
          · rfl
          · exact he

/-- If every edge has a new specifier, **all are found**. -/
theorem exists_specifierTargets (hsource : plan.targetFor file.path = .ok source)
    (h : ∀ e ∈ file.internalEdges,
      ∃ value, plan.specifierTarget g file source.parent e = .ok (some value)) :
    ∃ targets, plan.specifierTargets g file = .ok targets ∧
      ∀ e ∈ file.internalEdges, ∀ value,
        plan.specifierTarget g file source.parent e = .ok (some value) →
        targets.lookup (e.specifier, e.mechanism) = some value := by
  choose! value hvalue using h
  refine ⟨file.internalEdges.foldl (addValue value) [], ?_, fun e he v hv ↦ ?_⟩
  · rw [specifierTargets, hsource]
    refine foldlM_eq_ok (fun found e he ↦ ?_) []
    unfold addValue
    simp only [hvalue e he, bind, pure]
    split <;> rfl
  · have heq : value e = v := by simpa [hvalue e he] using hv
    exact heq ▸ lookup_foldl_addValue (by simp) e (.inl he)

/-- **Edges are linked.** In the planned graph of an entry, every internal edge of every file leads
to a file and has a new specifier. The new specifier is relative or absolute; read in the directory
into which the importing file is written, it leads to the target of the other file with the
extension that the mechanism asks for, which is the target itself if the formats agree. It shows
that extension unless it is relative and that place lies above the directory or is the directory. -/
theorem linked_of_build {fs : FileSystem} {names : MarkupNames} {entry output : Text}
    (hfs : fs.WellNamed) (hbuild : Graph.build fs names (Path.ofText entry) = .ok g)
    (hplan : make fs.here g (Path.ofText output) = .ok plan) (hfile : file ∈ g.files)
    (he : e ∈ file.internalEdges) :
    ∃ target ∈ g.files, ∃ source goal place : Path, ∃ targets : SpecifierTargets,
      ∃ specifier : Text,
        g.dependency file e.specifier = some target ∧
        plan.targetFor file.path = .ok source ∧
        plan.targetFor target.path = .ok goal ∧
        goal.withSuffix? (Format.forMechanism e.mechanism).extension = some place ∧
        plan.specifierTargets g file = .ok targets ∧
        targets.lookup (e.specifier, e.mechanism) = some specifier ∧
        (specifier.startsWith "./" = true ∨ specifier.startsWith "../" = true ∨
          specifier.startsWith "/" = true) ∧
        (specifier.endsWith (Format.forMechanism e.mechanism).extension = true ↔
          e.specifier.startsWith "/" = true ∨ source.parent.isBelow place = false) ∧
        dependencyPath source.parent specifier = place ∧
        (Format.forMechanism e.mechanism = target.format → place = goal) := by
  have htraced := Graph.traced_build hfs hbuild
  obtain ⟨folder, own, hsource⟩ := exists_writes hfs.isProper_here htraced hplan hfile
  have hparent : (folder.child (stem own ++ file.format.extension)).parent = folder := by
    simp [Path.parent, Path.child]
  -- Each edge has a file, each file a directory and a name, and so each edge a new specifier.
  have hedges : ∀ e ∈ file.internalEdges, ∃ target ∈ g.files, ∃ directory name,
      g.dependency file e.specifier = some target ∧ plan.Writes target directory name := by
    intro e he
    obtain ⟨target, htarget, hdependency⟩ := htraced.exists_dependency hfile he
    obtain ⟨directory, name, hwrites⟩ := exists_writes hfs.isProper_here htraced hplan htarget
    exact ⟨target, htarget, directory, name, hdependency, hwrites⟩
  obtain ⟨targets, htargets, hlookup⟩ := exists_specifierTargets hsource.target fun e he ↦ by
    obtain ⟨target, -, directory, name, hdependency, hwrites⟩ := hedges e he
    exact ⟨_, hwrites.specifierTarget hdependency _⟩
  obtain ⟨target, htarget, directory, name, hdependency, hwrites⟩ := hedges e he
  have hasked := hwrites.isProper_asked e
  have hanchor : folder.anchor = (asked directory name e).anchor :=
    hsource.anchor.trans hwrites.anchor.symm
  refine ⟨target, htarget, _, _, asked directory name e, targets, _, hdependency, hsource.target,
    hwrites.target, hwrites.withSuffix? e, htargets,
    hlookup e he _ (hwrites.specifierTarget hdependency _), startsWith_plannedSpecifier hasked _,
    ?_, ?_, fun hformat ↦ ?_⟩
  · rw [hparent]
    exact endsWith_plannedSpecifier_iff hasked hsource.proper hanchor _ rfl (List.suffix_append _ _) _
  · rw [hparent]
    exact dependencyPath_plannedSpecifier hasked hsource.proper hanchor _
  · rw [asked, hformat]

/-- Three scripts, of which one lies in a directory that has the name under which another one is
written. -/
def clashing : FileSystem where
  entries := [
    (["main.js"], .file (Utf8.encodeChars "import './a.mjs/b.js'".toList) false),
    (["a.js"], .file [] false),
    (["a.mjs"], .directory),
    (["a.mjs", "b.js"], .file (Utf8.encodeChars "import '../a.js'".toList) false)]
  cwd := []

/-- The edge from the script below the clash to the other one. -/
def upward : Edge := ⟨"../a.js", .imported⟩

/-- The graph and the plan of `clashing`, as far as the script below the clash goes. -/
theorem exists_upward : ∃ g plan file targets,
    Graph.build clashing {} (Path.ofText "main.js") = .ok g ∧
      make clashing.here g (Path.ofText "out") = .ok plan ∧ file ∈ g.files ∧
      upward ∈ file.internalEdges ∧ plan.specifierTargets g file = .ok targets ∧
      targets.lookup (upward.specifier, upward.mechanism) = some (Text.ofString "./.") := by
  obtain ⟨g, hg, h⟩ := exists_of_succeedsWith
    (x := Graph.build clashing {} (Path.ofText "main.js"))
    (p := fun g ↦ succeedsWith (fun plan ↦ g.files.any fun file ↦
      decide (upward ∈ file.internalEdges) &&
        succeedsWith (fun targets ↦
          decide (targets.lookup (upward.specifier, upward.mechanism) = some (Text.ofString "./.")))
          (plan.specifierTargets g file))
      (make clashing.here g (Path.ofText "out"))) (by decide +kernel)
  obtain ⟨plan, hplan, h⟩ := exists_of_succeedsWith h
  obtain ⟨file, hfile, h⟩ := any_eq_true.1 h
  rw [Bool.and_eq_true, decide_eq_true_eq] at h
  obtain ⟨targets, htargets, hlookup⟩ := exists_of_succeedsWith h.2
  exact ⟨g, plan, file, targets, hg, hplan, hfile, h.1, htargets, of_decide_eq_true hlookup⟩

theorem wellNamed_clashing : clashing.WellNamed := ⟨by decide, by decide⟩

/-- Below the clash the edge still leads to the place that is planned, though its new specifier has
no name in it. -/
theorem linked_upward : ∃ g plan file target source goal place,
    Graph.build clashing {} (Path.ofText "main.js") = .ok g ∧
      make clashing.here g (Path.ofText "out") = .ok plan ∧ file ∈ g.files ∧
      upward ∈ file.internalEdges ∧ g.dependency file upward.specifier = some target ∧
      plan.targetFor file.path = .ok source ∧ plan.targetFor target.path = .ok goal ∧
      goal.withSuffix? (Format.forMechanism upward.mechanism).extension = some place ∧
      dependencyPath source.parent (Text.ofString "./.") = place := by
  obtain ⟨g, plan, file, targets, hg, hplan, hfile, he, htargets, hlookup⟩ := exists_upward
  obtain ⟨target, -, source, goal, place, targets', specifier, hdependency, hsource, hgoal, hplace,
    htargets', hlookup', -, -, hleads, -⟩ := linked_of_build wellNamed_clashing hg hplan hfile he
  obtain rfl : targets' = targets := Except.ok.inj (htargets'.symm.trans htargets)
  obtain rfl : specifier = Text.ofString "./." := Option.some.inj (hlookup'.symm.trans hlookup)
  exact ⟨g, plan, file, target, source, goal, place, hg, hplan, hfile, he, hdependency, hsource,
    hgoal, hplace, hleads⟩

/-- Below the clash the new specifier **shows no extension**. -/
theorem not_endsWith_upward : ∃ g plan file targets specifier,
    Graph.build clashing {} (Path.ofText "main.js") = .ok g ∧
      make clashing.here g (Path.ofText "out") = .ok plan ∧ file ∈ g.files ∧
      upward ∈ file.internalEdges ∧ plan.specifierTargets g file = .ok targets ∧
      targets.lookup (upward.specifier, upward.mechanism) = some specifier ∧
      specifier.endsWith (Format.forMechanism upward.mechanism).extension = false := by
  obtain ⟨g, plan, file, targets, hg, hplan, hfile, he, htargets, hlookup⟩ := exists_upward
  exact ⟨g, plan, file, targets, _, hg, hplan, hfile, he, htargets, hlookup, by decide⟩

end Plan

end ScriptTree
