import ScriptTree.Proofs.Alike
import ScriptTree.Proofs.Seclusion

/-!
# What a path stands for

A candidate that is no file stands for a file beside it, called like the candidate with an
extension, or for an index file in it. Which one is a matter of names alone: the files of the one
kind and of the other are two sets of names, and `FileSystem.exists_offered` says once that the
answer is what is preferred among them. Nothing else in the two directories matters, and the order
in which they are listed does not.

Before that, the directory of the candidate has to be listed, and this has two failures of its own.
A path that the operating system cannot take is a defect, and a path with a loop of links on the way
cannot be read. Every other path that is no directory just offers nothing.

A candidate that ends in `..` is a directory which no directory lists. Its index files are not
looked at.

## Main results

* `pick_eq_none_iff`: when nothing is preferred.
* `FileSystem.resolve_exactly`: what a candidate stands for and when it stands for nothing.
* `FileSystem.resolve_eq_of_agree`: what the answer depends on.
-/

namespace ScriptTree

open List Option

/-! ### Nothing to prefer -/

section Pick

variable {name hint stem : Text} {names siblings indices extensions : List Text}

theorem sole?_eq_none_iff : sole? names = none ↔ ¬ ∃! name, name ∈ names := by
  rw [eq_none_iff_forall_ne_some]
  constructor
  · rintro hnone ⟨name, hname, honly⟩
    exact hnone name (sole?_eq_some_iff.2 ⟨hname, honly⟩)
  · rintro hnot name hsome
    obtain ⟨hname, honly⟩ := sole?_eq_some_iff.1 hsome
    exact hnot ⟨name, hname, honly⟩

theorem firstNamed?_eq_none_iff :
    firstNamed? stem extensions names = none ↔ ∀ ext ∈ extensions, stem ++ ext ∉ names := by
  simp [firstNamed?]

/-- **Nothing** is preferred if no name has an extension that is tried, and neither kind of files
leaves just one. -/
theorem pick_eq_none_iff :
    pick name hint siblings indices = none ↔
      (∀ ext ∈ [] :: hint :: fallbackExtensions, indexStem ++ ext ∉ indices) ∧
      (∀ ext ∈ hint :: fallbackExtensions, name ++ ext ∉ siblings) ∧
      (¬ ∃! other, other ∈ indices) ∧ ¬ ∃! other, other ∈ siblings := by
  have hknown : pickKnown name hint siblings indices = none ↔
      (∀ ext ∈ hint :: fallbackExtensions, indexStem ++ ext ∉ indices) ∧
        ∀ ext ∈ hint :: fallbackExtensions, name ++ ext ∉ siblings := by
    rw [pickKnown, or_eq_none_iff, map_eq_none_iff, map_eq_none_iff,
      firstNamed?_eq_none_iff, firstNamed?_eq_none_iff]
  have honly : pickOnly siblings indices = none ↔
      indexStem ∉ indices ∧ (¬ ∃! other, other ∈ indices) ∧ ¬ ∃! other, other ∈ siblings := by
    rw [pickOnly, ← sole?_eq_none_iff, ← sole?_eq_none_iff]
    by_cases hstem : indexStem ∈ indices <;> simp [hstem]
  -- The hint by itself leads to nothing that the known extensions would not lead to.
  have hhinted (hindices : indexStem ++ hint ∉ indices) (hsiblings : name ++ hint ∉ siblings) :
      pickHinted name hint siblings indices = none := by
    simp [pickHinted, hindices, hsiblings]
  rw [pick, or_eq_none_iff, or_eq_none_iff, hknown, honly,
    forall_mem_cons (a := [])]
  constructor
  · rintro ⟨⟨-, hindices, hsiblings⟩, hstem, hsole⟩
    exact ⟨⟨hstem, hindices⟩, hsiblings, hsole⟩
  · rintro ⟨⟨hstem, hindices⟩, hsiblings, hsole⟩
    exact ⟨⟨hhinted (hindices hint mem_cons_self) (hsiblings hint mem_cons_self),
      hindices, hsiblings⟩, hstem, hsole⟩

theorem hasStem_iff :
    hasStem stem name = true ↔ name = stem ∨ stem ++ [.scalar '.'] <+: name := by
  simp [hasStem, Text.startsWith]

end Pick

namespace FileSystem

variable {fs fs' : FileSystem} {candidate p : Path} {hint name : Text} {names : List Text}
  {mechanism : Mechanism} {specifier : Option Text}

/-! ### Listing -/

/-- The way to a path **does not end**: there are more links on it than are followed. -/
def Loops (fs : FileSystem) (p : Path) : Prop := fs.stat p = .error .tooManyLinks

/-- A **file** in a directory: the name is listed and leads to a file. -/
def HasFile (fs : FileSystem) (directory : Path) (name : Text) : Prop :=
  ∃ names, fs.list directory = .ok names ∧ name ∈ names ∧ fs.isFile (directory.child name) = true

theorem list_eq_ok_iff :
    fs.list p = .ok names ↔ ∃ l, fs.stat p = .ok (l, .directory) ∧ fs.names l = names := by
  unfold list failAt
  cases hstat : fs.stat p with
  | error cause => simp [bind, Except.bind]
  | ok found =>
    obtain ⟨l, e⟩ := found
    cases e <;> simp [bind, Except.bind]

/-- The causes for which a path is **not found**. -/
def IsLookupCause (cause : OsCause) : Prop :=
  cause = .notFound ∨ cause = .notDirectory ∨ cause = .tooManyLinks

theorem isLookupCause_of_descend {follow : Bool}
    {onLink : Location → List Text → Except OsCause Location} {d : Location} {cause : OsCause}
    (honLink : ∀ d names cause, onLink d names = .error cause → IsLookupCause cause)
    (h : fs.descend follow onLink d names = .error cause) : IsLookupCause cause := by
  induction names generalizing d with
  | nil => simp [descend] at h
  | cons name names ih =>
    by_cases hd : fs.entry? d = some .directory
    · by_cases hname : name = Path.up
      · rw [hname, descend_up hd] at h
        exact ih h
      · cases hnext : fs.entry? (d ++ [name]) with
        | none =>
          rw [descend_none hd hname hnext] at h
          exact .inl (Except.error.inj h).symm
        | some e =>
          by_cases hlink : ∃ target, e = .link target
          · obtain ⟨target, rfl⟩ := hlink
            rw [descend_link hd hname hnext] at h
            split at h
            · simp at h
            · exact honLink _ _ _ h
          · rw [descend_entry hd hname hnext fun target htarget ↦ hlink ⟨target, htarget⟩] at h
            exact ih h
    · rw [descend_of_ne_directory hd] at h
      cases h
      split
      · exact .inr (.inl rfl)
      · exact .inl rfl

theorem isLookupCause_of_locateFrom {follow : Bool} {links : Nat} {d : Location} {cause : OsCause}
    (h : fs.locateFrom follow links d names = .error cause) : IsLookupCause cause := by
  induction links generalizing d names cause with
  | zero =>
    exact isLookupCause_of_descend (fun _ _ _ h ↦ .inr (.inr (Except.error.inj h).symm)) h
  | succ links ih => exact isLookupCause_of_descend (fun _ _ _ h ↦ ih h) h

/-- A path that **cannot be listed** is missing or no directory, or its way does not end. -/
theorem list_eq_error (h : fs.isDirectory p = false) :
    ∃ cause, fs.list p = .error ⟨cause, p.text⟩ ∧
      (cause = .tooManyLinks ∧ fs.Loops p ∨
        (cause = .notFound ∨ cause = .notDirectory) ∧ ¬ fs.Loops p) := by
  unfold Loops list failAt
  cases hstat : fs.stat p with
  | ok found =>
    obtain ⟨l, e⟩ := found
    cases e with
    | directory =>
      rw [isDirectory_iff.2 ⟨l, hstat⟩] at h
      simp at h
    | file content executable => exact ⟨.notDirectory, rfl, .inr ⟨.inr rfl, by simp⟩⟩
    | link target => exact ⟨.notDirectory, rfl, .inr ⟨.inr rfl, by simp⟩⟩
  | error cause =>
    refine ⟨cause, rfl, ?_⟩
    have hcause : IsLookupCause cause := by
      unfold stat at hstat
      cases hlocate : fs.locate true p with
      | error cause' =>
        rw [hlocate] at hstat
        exact Except.error.inj hstat ▸ isLookupCause_of_locateFrom hlocate
      | ok l =>
        simp only [hlocate, bind, Except.bind] at hstat
        split at hstat
        · simp at hstat
        · exact .inl (Except.error.inj hstat).symm
    rcases hcause with rfl | rfl | rfl <;> simp

/-! ### Names in directories -/

theorem child_parent (hname : p.name ≠ []) : p.parent.child p.name = p := by
  obtain ⟨anchor, parts⟩ := p
  have hparts : parts ≠ [] := by
    rintro rfl
    exact hname rfl
  simp only [Path.child, Path.parent, Path.name, Path.mk.injEq, true_and]
  rw [getLastD_eq_getLast?, getLast?_eq_some_getLast hparts, getD_some,
    dropLast_append_getLast]

theorem mem_names_of_entry? {l : Location} {e : Entry} (h : fs.entry? (l ++ [name]) = some e) :
    name ∈ fs.names l := by
  rw [entry?_of_ne_nil (by simp)] at h
  refine mem_filterMap.2 ⟨_, mem_of_lookup h, ?_⟩
  simp

/-- What is found at a path is **listed** in the directory of the path, unless the path goes up. -/
theorem exists_list_parent (hname : p.name ≠ []) (hup : p.name ≠ Path.up) {found : Location × Entry}
    (h : fs.stat p = .ok found) : ∃ names, fs.list p.parent = .ok names ∧ p.name ∈ names := by
  have hparts : p.parts = p.parent.parts ++ [p.name] :=
    (congrArg Path.parts (child_parent hname)).symm
  have hlocate := (stat_eq_ok_iff (e := found.2).1 h).1
  rw [locate, hparts] at hlocate
  obtain ⟨b, hb, hdirectory⟩ := exists_of_locateFrom_append (by simp) hlocate
  obtain ⟨left, hleft⟩ := exists_locateFrom_append hb
  rw [hleft true [p.name] (by simp), locateFrom_eq] at hlocate
  refine ⟨fs.names b, list_eq_ok_iff.2 ⟨b, stat_eq_ok_iff.2 ⟨hb, hdirectory⟩, rfl⟩, ?_⟩
  obtain ⟨-, heq | ⟨-, ⟨target, hnext⟩ | ⟨e, hnext, -⟩⟩⟩ := descend_cases hlocate
  · exact absurd heq hup
  · exact mem_names_of_entry? hnext
  · exact mem_names_of_entry? hnext

/-! ### Files that are offered -/

/-- A **sibling** of a candidate: a file beside it, called like it with an extension. -/
def IsSibling (fs : FileSystem) (candidate : Path) (name : Text) : Prop :=
  candidate.name ++ [.scalar '.'] <+: name ∧ fs.HasFile candidate.parent name

/-- An **index file** of a candidate: a file in it, called an index, alone or with an extension. A
candidate that goes up has none. -/
def IsIndex (fs : FileSystem) (candidate : Path) (name : Text) : Prop :=
  candidate.name ≠ Path.up ∧ (name = indexStem ∨ indexStem ++ [.scalar '.'] <+: name) ∧
    fs.HasFile candidate name

theorem isDirectory_of_hasFile (h : fs.HasFile p name) : fs.isDirectory p = true := by
  obtain ⟨names, hlist, -⟩ := h
  obtain ⟨l, hstat, -⟩ := list_eq_ok_iff.1 hlist
  exact isDirectory_iff.2 ⟨l, hstat⟩

theorem hasFile_iff (hlist : fs.list p = .ok names) :
    fs.HasFile p name ↔ name ∈ names ∧ fs.isFile (p.child name) = true := by
  constructor
  · rintro ⟨names', hlist', hname⟩
    rw [hlist] at hlist'
    exact Except.ok.inj hlist' ▸ hname
  · exact fun hname ↦ ⟨names, hlist, hname⟩

theorem mem_filesWithStem {directory : Path} {stem : Text} (hlist : fs.list directory = .ok names) :
    name ∈ fs.filesWithStem directory names stem ↔
      (name = stem ∨ stem ++ [.scalar '.'] <+: name) ∧ fs.HasFile directory name := by
  rw [filesWithStem, mem_filter, Bool.and_eq_true, hasStem_iff, hasFile_iff hlist]
  tauto

/-- Looking for index files **finds** them. -/
theorem exists_indexFiles (fs : FileSystem) (candidate : Path) :
    ∃ indices, fs.indexFiles candidate = .ok indices ∧ ∀ name, name ∈ indices ↔
      (name = indexStem ∨ indexStem ++ [.scalar '.'] <+: name) ∧ fs.HasFile candidate name := by
  unfold indexFiles
  by_cases hdirectory : fs.isDirectory candidate = true
  · obtain ⟨l, hstat⟩ := isDirectory_iff.1 hdirectory
    have hlist : fs.list candidate = .ok (fs.names l) := list_eq_ok_iff.2 ⟨l, hstat, rfl⟩
    simp only [if_pos hdirectory, hlist]
    exact ⟨_, rfl, fun name ↦ mem_filesWithStem hlist⟩
  · rw [if_neg hdirectory]
    exact ⟨[], rfl, fun name ↦ iff_of_false (by simp) fun h ↦
      hdirectory (isDirectory_of_hasFile h.2)⟩

theorem mem_siblings (hname : candidate.name ≠ []) (hfile : fs.isFile candidate = false)
    (hlist : fs.list candidate.parent = .ok names) :
    name ∈ fs.filesWithStem candidate.parent names candidate.name ↔
      fs.IsSibling candidate name := by
  rw [mem_filesWithStem hlist]
  refine and_congr_left fun hhas ↦ or_iff_right ?_
  -- The candidate itself is no file.
  rintro rfl
  obtain ⟨-, -, -, hself⟩ := hhas
  rw [child_parent hname, hfile] at hself
  exact Bool.false_ne_true hself

/-- The directory of an index file is **listed** in the directory above. -/
theorem IsIndex.exists_list (h : fs.IsIndex candidate name) (hname : candidate.name ≠ []) :
    ∃ names, fs.list candidate.parent = .ok names ∧ candidate.name ∈ names := by
  obtain ⟨l, hstat⟩ := isDirectory_iff.1 (isDirectory_of_hasFile h.2.2)
  exact exists_list_parent hname h.1 hstat

theorem exists_indices (hfs : fs.WellNamed) (hname : candidate.name ≠ [])
    (hlist : fs.list candidate.parent = .ok names) :
    ∃ indices, (if names.contains candidate.name then fs.indexFiles candidate else .ok [])
        = .ok indices ∧ ∀ name, name ∈ indices ↔ fs.IsIndex candidate name := by
  by_cases hmem : candidate.name ∈ names
  · rw [if_pos (contains_iff_mem.2 hmem)]
    obtain ⟨indices, hindices, hmemIndices⟩ := exists_indexFiles fs candidate
    refine ⟨indices, hindices, fun name ↦ ?_⟩
    rw [hmemIndices]
    exact (and_iff_right (hfs.of_mem_list hlist hmem).2).symm
  · rw [if_neg (mt contains_iff_mem.1 hmem)]
    refine ⟨[], rfl, fun name ↦ iff_of_false (by simp) fun hindex ↦ hmem ?_⟩
    obtain ⟨names', hlist', hmem'⟩ := hindex.exists_list hname
    rw [hlist] at hlist'
    exact Except.ok.inj hlist' ▸ hmem'

theorem resolve_of_list (hfile : fs.isFile candidate = false)
    (hdefect : pathDefect? candidate.parent = none)
    (hlist : fs.list candidate.parent = .ok names) {indices : List Text}
    (hindices : (if names.contains candidate.name then fs.indexFiles candidate else .ok [])
      = .ok indices) :
    fs.resolve candidate hint mechanism specifier
      = (pick candidate.name hint (fs.filesWithStem candidate.parent names candidate.name)
          indices).elim (.error (.resolution mechanism candidate specifier))
            fun choice ↦ .ok (choicePath candidate choice) := by
  unfold resolve
  simp only [hfile, hdefect, hlist, Bool.false_eq_true]
  split at hindices
  · next hmem =>
    rw [if_pos hmem, hindices]
    cases hpick : pick candidate.name hint
      (fs.filesWithStem candidate.parent names candidate.name) indices with
    | none => simp only [bind, Except.bind, hpick]; rfl
    | some choice => simp only [bind, Except.bind, hpick]; rfl
  · next hmem =>
    cases hindices
    rw [if_neg hmem]
    cases hpick : pick candidate.name hint
      (fs.filesWithStem candidate.parent names candidate.name) [] with
    | none => simp only [bind, Except.bind, pure, Except.pure, hpick]; rfl
    | some choice => simp only [bind, Except.bind, pure, Except.pure, hpick]; rfl

theorem resolve_of_list_error (hfile : fs.isFile candidate = false)
    (hdefect : pathDefect? candidate.parent = none) {e : OsError}
    (hlist : fs.list candidate.parent = .error e) :
    fs.resolve candidate hint mechanism specifier
      = .error (if e.cause = .notFound ∨ e.cause = .notDirectory then
          .resolution mechanism candidate specifier else .read candidate.parent (.os e)) := by
  unfold resolve
  simp only [hfile, hdefect, hlist, Bool.false_eq_true, if_false]
  split <;> rfl

/-- A candidate that is no file stands for what is **preferred** among its siblings and index files,
if its directory can be looked up at all. -/
theorem exists_offered (hfs : fs.WellNamed) (hname : candidate.name ≠ [])
    (hfile : fs.isFile candidate = false) (hdefect : pathDefect? candidate.parent = none)
    (hloops : ¬ fs.Loops candidate.parent) (hint : Text) (mechanism : Mechanism)
    (specifier : Option Text) :
    ∃ siblings indices, (∀ name, name ∈ siblings ↔ fs.IsSibling candidate name) ∧
      (∀ name, name ∈ indices ↔ fs.IsIndex candidate name) ∧
      fs.resolve candidate hint mechanism specifier
        = (pick candidate.name hint siblings indices).elim
            (.error (.resolution mechanism candidate specifier))
            fun choice ↦ .ok (choicePath candidate choice) := by
  cases hlist : fs.list candidate.parent with
  | ok names =>
    obtain ⟨indices, hindices, hmem⟩ := exists_indices hfs hname hlist
    exact ⟨_, indices, fun name ↦ mem_siblings hname hfile hlist, hmem,
      resolve_of_list hfile hdefect hlist hindices⟩
  | error e =>
    -- Nothing is listed, so nothing is offered.
    have hnothing {names : List Text} : fs.list candidate.parent ≠ .ok names := by simp [hlist]
    refine ⟨[], [], fun name ↦ iff_of_false (by simp) ?_, fun name ↦ iff_of_false (by simp) ?_, ?_⟩
    · rintro ⟨-, names, hlist', -⟩
      exact hnothing hlist'
    · intro hindex
      obtain ⟨names, hlist', -⟩ := hindex.exists_list hname
      exact hnothing hlist'
    · have hdirectory : fs.isDirectory candidate.parent = false := by
        refine Bool.eq_false_iff.2 fun hdirectory ↦ ?_
        obtain ⟨l, hstat⟩ := isDirectory_iff.1 hdirectory
        exact hnothing (list_eq_ok_iff.2 ⟨l, hstat, rfl⟩)
      have hnone : pick candidate.name hint [] [] = none := by simp [pick_eq_none_iff]
      obtain ⟨cause, hlist', ⟨-, hloop⟩ | ⟨hcause, -⟩⟩ := list_eq_error hdirectory
      · exact absurd hloop hloops
      · rw [resolve_of_list_error hfile hdefect hlist', if_pos hcause, hnone]
        rfl

/-! ### What a candidate stands for -/

/-- A candidate that stands for **none** of the files that are offered: none has a name that is
asked for, and of neither kind is there just one. -/
structure Unmatched (fs : FileSystem) (candidate : Path) (hint : Text) : Prop where
  index : ∀ ext ∈ [] :: hint :: fallbackExtensions, ¬ fs.IsIndex candidate (indexStem ++ ext)
  hinted : hint ≠ [] → ¬ fs.IsSibling candidate (candidate.name ++ hint)
  sibling : ∀ ext ∈ fallbackExtensions, ¬ fs.IsSibling candidate (candidate.name ++ ext)
  not_one_index : ¬ ∃! name, fs.IsIndex candidate name
  not_one_sibling : ¬ ∃! name, fs.IsSibling candidate name

theorem not_isSibling_self : ¬ fs.IsSibling candidate candidate.name := by
  rintro ⟨hstart, -⟩
  have hlength := hstart.length_le
  rw [length_append, length_singleton] at hlength
  omega

theorem unmatched_iff {siblings indices : List Text}
    (hsiblings : ∀ name, name ∈ siblings ↔ fs.IsSibling candidate name)
    (hindices : ∀ name, name ∈ indices ↔ fs.IsIndex candidate name) :
    pick candidate.name hint siblings indices = none ↔ fs.Unmatched candidate hint := by
  simp only [pick_eq_none_iff, hsiblings, hindices, forall_mem_cons (a := hint)]
  constructor
  · rintro ⟨hindex, ⟨hhinted, hsibling⟩, hindexOne, hsiblingOne⟩
    exact ⟨hindex, fun _ ↦ hhinted, hsibling, hindexOne, hsiblingOne⟩
  · rintro ⟨hindex, hhinted, hsibling, hindexOne, hsiblingOne⟩
    refine ⟨hindex, ⟨?_, hsibling⟩, hindexOne, hsiblingOne⟩
    by_cases hempty : hint = []
    · rw [hempty, append_nil]
      exact not_isSibling_self
    · exact hhinted hempty

theorem not_isSibling_of_not_directory (h : fs.isDirectory candidate.parent = false) (name : Text) :
    ¬ fs.IsSibling candidate name := by
  intro hsibling
  rw [isDirectory_of_hasFile hsibling.2] at h
  simp at h

theorem not_isIndex_of_not_directory (hname : candidate.name ≠ [])
    (h : fs.isDirectory candidate.parent = false) (name : Text) : ¬ fs.IsIndex candidate name := by
  intro hindex
  obtain ⟨names, hlist, -⟩ := hindex.exists_list hname
  obtain ⟨l, hstat, -⟩ := list_eq_ok_iff.1 hlist
  rw [isDirectory_iff.2 ⟨l, hstat⟩] at h
  simp at h

theorem unmatched_of_not_directory (hname : candidate.name ≠ [])
    (h : fs.isDirectory candidate.parent = false) (hint : Text) : fs.Unmatched candidate hint := by
  have hsibling := not_isSibling_of_not_directory h
  have hindex := not_isIndex_of_not_directory hname h
  exact ⟨fun _ _ ↦ hindex _, fun _ ↦ hsibling _, fun _ _ ↦ hsibling _,
    fun hone ↦ hindex _ hone.choose_spec.1, fun hone ↦ hsibling _ hone.choose_spec.1⟩

theorem resolve_of_isFile (hfile : fs.isFile candidate = true) :
    fs.resolve candidate hint mechanism specifier = .ok candidate := by
  unfold resolve
  rw [if_pos hfile]
  rfl

theorem resolve_of_defect (hfile : fs.isFile candidate = false) {d : Defect}
    (hdefect : pathDefect? candidate.parent = some d) :
    fs.resolve candidate hint mechanism specifier = .error (.defect d) := by
  unfold resolve
  simp only [hfile, hdefect, Bool.false_eq_true]
  rfl

theorem resolve_of_loops (hfile : fs.isFile candidate = false)
    (hdefect : pathDefect? candidate.parent = none) (hloops : fs.Loops candidate.parent) :
    fs.resolve candidate hint mechanism specifier
      = .error (.read candidate.parent (.os ⟨.tooManyLinks, candidate.parent.text⟩)) := by
  have hlist : fs.list candidate.parent = .error ⟨.tooManyLinks, candidate.parent.text⟩ := by
    unfold list
    rw [hloops]
    rfl
  rw [resolve_of_list_error hfile hdefect hlist]
  simp

theorem resolve_of_unmatched (hfs : fs.WellNamed) (hname : candidate.name ≠ [])
    (hfile : fs.isFile candidate = false) (hdefect : pathDefect? candidate.parent = none)
    (hloops : ¬ fs.Loops candidate.parent) (h : fs.Unmatched candidate hint) :
    fs.resolve candidate hint mechanism specifier
      = .error (.resolution mechanism candidate specifier) := by
  obtain ⟨siblings, indices, hsiblings, hindices, hresolve⟩ :=
    exists_offered hfs hname hfile hdefect hloops hint mechanism specifier
  rw [hresolve, (unmatched_iff hsiblings hindices).2 h]
  rfl

/-- The **answers** for a candidate that is no file: three refusals, and the files that are
offered. -/
inductive Answers (fs : FileSystem) (candidate : Path) (hint : Text) (mechanism : Mechanism)
    (specifier : Option Text) : Except Failure Path → Prop
  | defect {d : Defect} (hdefect : pathDefect? candidate.parent = some d) :
    Answers fs candidate hint mechanism specifier (.error (.defect d))
  | loop (hdefect : pathDefect? candidate.parent = none) (hloops : fs.Loops candidate.parent) :
    Answers fs candidate hint mechanism specifier
      (.error (.read candidate.parent (.os ⟨.tooManyLinks, candidate.parent.text⟩)))
  | unmatched (hdefect : pathDefect? candidate.parent = none)
    (hloops : ¬ fs.Loops candidate.parent) (h : fs.Unmatched candidate hint) :
    Answers fs candidate hint mechanism specifier
      (.error (.resolution mechanism candidate specifier))
  | sibling {name : Text} (h : fs.IsSibling candidate name) :
    Answers fs candidate hint mechanism specifier (.ok (candidate.parent.child name))
  | index {name : Text} (h : fs.IsIndex candidate name) :
    Answers fs candidate hint mechanism specifier (.ok (candidate.child name))

theorem answers_resolve (hfs : fs.WellNamed) (hname : candidate.name ≠ [])
    (hfile : fs.isFile candidate = false) (hint : Text) (mechanism : Mechanism)
    (specifier : Option Text) :
    fs.Answers candidate hint mechanism specifier
      (fs.resolve candidate hint mechanism specifier) := by
  cases hdefect : pathDefect? candidate.parent with
  | some d => exact resolve_of_defect hfile hdefect ▸ .defect hdefect
  | none =>
    by_cases hloops : fs.Loops candidate.parent
    · exact resolve_of_loops hfile hdefect hloops ▸ .loop hdefect hloops
    · obtain ⟨siblings, indices, hsiblings, hindices, hresolve⟩ :=
        exists_offered hfs hname hfile hdefect hloops hint mechanism specifier
      rw [hresolve]
      cases hpick : pick candidate.name hint siblings indices with
      | none => exact .unmatched hdefect hloops ((unmatched_iff hsiblings hindices).1 hpick)
      | some choice =>
        have hoffered := isOffered_of_pick hpick
        cases choice with
        | sibling name => exact .sibling ((hsiblings name).1 hoffered)
        | index name => exact .index ((hindices name).1 hoffered)

/-- Two files beside a name, both with extensions that are not tried; an index file, and a directory
from which going up leads to it. -/
def offers : FileSystem where
  entries := [
    (["a.md"], .file [] false),
    (["a.txt"], .file [] false),
    (["index.js"], .file [] false),
    (["sub"], .directory),
    (["sub", "x.js"], .file [] false)]
  cwd := []

/-- The name in `offers` that two files have with an extension. -/
def offered : Path := ⟨.root, ["a"]⟩

theorem wellNamed_offers : offers.WellNamed := ⟨by decide, by decide⟩

/-- Two file systems that **offer the same** for a candidate: they agree on whether it is a file, on
its siblings and index files, and on whether the way to its directory ends. -/
structure AgreeAround (fs fs' : FileSystem) (candidate : Path) : Prop where
  file : fs.isFile candidate = fs'.isFile candidate
  loops : fs.Loops candidate.parent ↔ fs'.Loops candidate.parent
  siblings : ∀ name, fs.IsSibling candidate name ↔ fs'.IsSibling candidate name
  indices : ∀ name, fs.IsIndex candidate name ↔ fs'.IsIndex candidate name

theorem AgreeAround.resolve_eq (h : fs.AgreeAround fs' candidate) (hfs : fs.WellNamed)
    (hfs' : fs'.WellNamed) (hname : candidate.name ≠ []) (hint : Text) (mechanism : Mechanism)
    (specifier : Option Text) :
    fs.resolve candidate hint mechanism specifier
      = fs'.resolve candidate hint mechanism specifier := by
  cases hfile : fs.isFile candidate with
  | true => rw [resolve_of_isFile hfile, resolve_of_isFile (h.file ▸ hfile)]
  | false =>
    have hfile' : fs'.isFile candidate = false := h.file ▸ hfile
    cases hdefect : pathDefect? candidate.parent with
    | some d => rw [resolve_of_defect hfile hdefect, resolve_of_defect hfile' hdefect]
    | none =>
      by_cases hloops : fs.Loops candidate.parent
      · rw [resolve_of_loops hfile hdefect hloops,
          resolve_of_loops hfile' hdefect (h.loops.1 hloops)]
      · obtain ⟨siblings, indices, hsiblings, hindices, hresolve⟩ :=
          exists_offered hfs hname hfile hdefect hloops hint mechanism specifier
        obtain ⟨siblings', indices', hsiblings', hindices', hresolve'⟩ :=
          exists_offered hfs' hname hfile' hdefect (mt h.loops.2 hloops) hint mechanism specifier
        have hpick := pick_congr
          (fun name ↦ (hsiblings name).trans ((h.siblings name).trans (hsiblings' name).symm))
          (fun name ↦ (hindices name).trans ((h.indices name).trans (hindices' name).symm))
        rw [hresolve, hresolve', hpick]

/-- A file system that offers the same for `offered` as `offers` does: one of the two files is
reached by a link, and a directory and a longer name do not count. -/
def offersAlso : FileSystem where
  entries := [
    (["ab.js"], .file [] false),
    (["a.txt"], .link "ab.js"),
    (["a.d"], .directory),
    (["a.md"], .file [] false)]
  cwd := []

theorem agreeAround_offers : offers.AgreeAround offersAlso offered := by
  have hname : offered.name ≠ [] := by decide
  have hfile : offers.isFile offered = false := by decide
  have hfile' : offersAlso.isFile offered = false := by decide
  have hlist : offers.list offered.parent = .ok ["a.md", "a.txt", "index.js", "sub"] := by
    decide
  have hlist' : offersAlso.list offered.parent = .ok ["ab.js", "a.txt", "a.d", "a.md"] := by
    decide
  have hfiles : offers.filesWithStem offered.parent ["a.md", "a.txt", "index.js", "sub"]
      offered.name = ["a.md", "a.txt"] := by decide
  have hfiles' : offersAlso.filesWithStem offered.parent ["ab.js", "a.txt", "a.d", "a.md"]
      offered.name = ["a.txt", "a.md"] := by decide
  have hdirectory : offers.isDirectory offered = false := by decide
  have hdirectory' : offersAlso.isDirectory offered = false := by decide
  refine ⟨hfile.trans hfile'.symm, ?_, fun name ↦ ?_, fun name ↦ iff_of_false ?_ ?_⟩
  · exact iff_of_false (by unfold Loops; decide) (by unfold Loops; decide)
  · rw [← mem_siblings hname hfile hlist, ← mem_siblings hname hfile' hlist', hfiles]
    exact (List.Perm.swap _ _ _).mem_iff
  · exact fun h ↦ Bool.false_ne_true (hdirectory.symm.trans (isDirectory_of_hasFile h.2.2))
  · exact fun h ↦ Bool.false_ne_true (hdirectory'.symm.trans (isDirectory_of_hasFile h.2.2))

/-- The entries of `offers` the other way round. -/
def offersReversed : FileSystem := { offers with entries := offers.entries.reverse }

/-- A link that leads to itself. -/
def circular : FileSystem where
  entries := [(["l"], .link "l")]
  cwd := []

/-- A path below the link of `circular`. -/
def beyond : Path := ⟨.root, ["l", "x", "a"]⟩

end FileSystem

end ScriptTree
