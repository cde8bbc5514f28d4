import ScriptTree.Proofs.FileTree

/-!
# Output trees

After an output directory has been cleared, some first name on the way to it leads nowhere: this is
the **vacancy** where all output will stand. Whatever is written there grows below one location, its
root, and nothing else changes. There are no links in what is written, so below the root paths and
locations correspond name by name, and the outcome of every operation there is plain: a directory is
made unless something is there or a file is in the way, and a file is written unless a directory is
there.

## Main results

* `Vacancy.Holds.makeDirectory_cases`: what comes of making a directory.
* `Vacancy.Holds.write_cases`: what comes of writing a file.
* `Vacancy.Holds.of_makeParentsFrom`, `Vacancy.Holds.of_write`: what succeeds leaves output.
-/

namespace ScriptTree

open List
open FileSystem

/-- The **vacancy** for an output directory: the names on the way to it lead to some directory, and
there nothing stands under the next name. -/
structure Vacancy (fs : FileSystem) (out : Path) where
  /-- The names up to the last directory that is there. -/
  above : List Text
  /-- The first name that is not there. -/
  first : Text
  /-- The names from there on. -/
  rest : List Text
  /-- The location of the last directory that is there. -/
  base : Location
  parts : out.parts = above ++ first :: rest
  absolute : out.isAbsolute = true
  proper : Path.up ∉ first :: rest
  found : fs.stat ⟨out.anchor, above⟩ = .ok (base, .directory)
  free : fs.entry? (base ++ [first]) = none

namespace Vacancy

variable {cleared fs fs' : FileSystem} {out : Path} (v : Vacancy cleared out)

/-- The location below which all output will stand. -/
def root : Location := v.base ++ [v.first]

/-- The path to a place below the root. -/
def path (q : List Text) : Path := ⟨out.anchor, v.above ++ v.first :: q⟩

theorem root_ne_nil : v.root ≠ [] := by simp [root]

theorem append_eq_path (names : List Text) : out.append names = v.path (v.rest ++ names) := by
  simp [Path.append, path, v.parts]

theorem parent_path_concat (q : List Text) (name : Text) :
    (v.path (q ++ [name])).parent = v.path q := by
  show (⟨_, (v.above ++ v.first :: (q ++ [name])).dropLast⟩ : Path) = _
  rw [← cons_append, ← append_assoc, dropLast_concat]
  rfl

theorem name_path_concat (q : List Text) (name : Text) : (v.path (q ++ [name])).name = name := by
  show (v.above ++ v.first :: (q ++ [name])).getLastD [] = name
  rw [← cons_append, ← append_assoc, getLastD_concat]

/-- A file is **in the way** to a place. -/
def Obstructs (fs : FileSystem) (q : List Text) : Prop :=
  ∃ before after content executable, q = before ++ after ∧
    fs.entry? (v.root ++ before) = some (.file content executable)

variable {v} in
theorem Obstructs.mono {q : List Text} (h : v.Obstructs fs q) (hkeeps : fs.Keeps fs') :
    v.Obstructs fs' q := by
  obtain ⟨before, after, content, executable, heq, hfile⟩ := h
  exact ⟨before, after, content, executable, heq, hkeeps _ _ hfile⟩

variable {v} in
theorem Obstructs.append {q : List Text} (h : v.Obstructs fs q) (names : List Text) :
    v.Obstructs fs (q ++ names) := by
  obtain ⟨before, after, content, executable, rfl, hfile⟩ := h
  exact ⟨before, after ++ names, content, executable, by rw [append_assoc], hfile⟩

/-- A file system in which **part of the output** stands: the rest is as it was, and below the root
there are only files at their places and directories on the way to them. -/
structure Holds (places : List (List Text)) (fs : FileSystem) : Prop where
  erased : fs.eraseTree v.root = cleared
  nested : fs.Nested
  nodup : (fs.entries.map (·.1)).Nodup
  below : ∀ q e, fs.entry? (v.root ++ q) = some e →
    (e = .directory ∧ ∃ names, names ≠ [] ∧ q ++ names ∈ places) ∨
      q ∈ places ∧ ∃ content, e = .file content false

variable {v} {places : List (List Text)} {q : List Text}

/-- Where only the output differs, all else is **kept**. -/
theorem keeps_of_erased (herased : fs.eraseTree v.root = cleared) : cleared.Keeps fs := by
  intro l e he
  rw [← herased, entry?_eraseTree v.root_ne_nil] at he
  exact (Option.ite_none_left_eq_some.1 he).2

/-- In the beginning **nothing** of the output stands. -/
theorem holds_cleared (v : Vacancy cleared out) (h : cleared.IsTree)
    (places : List (List Text)) : v.Holds places cleared := by
  refine ⟨h.nested.eraseTree_eq_self v.free, h.nested, h.nodup, fun q e he ↦ ?_⟩
  have hnone : cleared.entry? (v.root ++ q) = none := h.nested.entry?_eq_none v.free q
  rw [hnone] at he
  cases he

namespace Holds

theorem keeps (h : v.Holds places fs) : cleared.Keeps fs := keeps_of_erased h.erased

theorem stat_base (h : v.Holds places fs) :
    fs.stat ⟨out.anchor, v.above⟩ = .ok (v.base, .directory) :=
  stat_of_keeps h.keeps v.absolute v.found

theorem entry?_base (h : v.Holds places fs) : fs.entry? v.base = some .directory :=
  (stat_eq_ok_iff.1 h.stat_base).2

/-- Below the root there are **no links**. -/
theorem ne_link (h : v.Holds places fs) {target : Text} :
    fs.entry? (v.root ++ q) ≠ some (.link target) := by
  intro hlink
  rcases h.below q _ hlink with ⟨he, -⟩ | ⟨-, content, he⟩ <;> cases he

/-- Beyond the base a lookup **descends** from there. -/
theorem exists_locate_path (h : v.Holds places fs) (q : List Text) :
    ∃ left, ∀ follow, fs.locate follow (v.path q)
      = fs.descend follow (fs.followLink follow left) v.base (v.first :: q) := by
  have hbase := (stat_eq_ok_iff.1 h.stat_base).1
  rw [locate_of_isAbsolute (p := ⟨out.anchor, v.above⟩) v.absolute] at hbase
  obtain ⟨left, hleft⟩ := exists_locateFrom_append hbase
  refine ⟨left, fun follow ↦ ?_⟩
  rw [locate_of_isAbsolute (p := v.path q) v.absolute, ← locateFrom_eq]
  exact hleft follow (v.first :: q) (by simp)

theorem no_links (h : v.Holds places fs) (q : List Text) (before after : List Text) (target : Text)
    (hbefore : before ≠ []) (heq : v.first :: q = before ++ after) :
    fs.entry? (v.base ++ before) ≠ some (.link target) := by
  obtain ⟨first, before, rfl⟩ := exists_cons_of_ne_nil hbefore
  obtain ⟨rfl, -⟩ := List.cons.inj heq
  rw [append_cons]
  exact h.ne_link

/-- A path below the root leads to **what is there**. -/
theorem locate_of_entry (h : v.Holds places fs) (hq : Path.up ∉ v.first :: q) {e : Entry}
    (he : fs.entry? (v.root ++ q) = some e) (follow : Bool) :
    fs.locate follow (v.path q) = .ok (v.root ++ q) := by
  obtain ⟨left, hleft⟩ := h.exists_locate_path q
  rw [root, ← append_cons] at he ⊢
  rw [hleft follow]
  exact descend_of_entry h.nested hq (h.no_links q) he

/-- A path below the root to something that is not there is **missing**, or a file is in its way. -/
theorem locate_of_none (h : v.Holds places fs) (hq : Path.up ∉ v.first :: q)
    (hnone : fs.entry? (v.root ++ q) = none) (follow : Bool) :
    fs.locate follow (v.path q) = .error .notFound ∨
      fs.locate follow (v.path q) = .error .notDirectory ∧ v.Obstructs fs q := by
  obtain ⟨left, hleft⟩ := h.exists_locate_path q
  rw [root, ← append_cons] at hnone
  rw [hleft follow]
  refine (descend_of_none h.entry?_base hq (h.no_links q) hnone).imp id fun hfail ↦ ?_
  obtain ⟨hfail, before, after, content, executable, heq, hbefore, hfile⟩ := hfail
  obtain ⟨first, before, rfl⟩ := exists_cons_of_ne_nil hbefore
  obtain ⟨rfl, rfl⟩ := List.cons.inj heq
  rw [append_cons] at hfile
  exact ⟨hfail, before, after, content, executable, rfl, hfile⟩

theorem stat_of_entry (h : v.Holds places fs) (hq : Path.up ∉ v.first :: q) {e : Entry}
    (he : fs.entry? (v.root ++ q) = some e) : fs.stat (v.path q) = .ok (v.root ++ q, e) :=
  stat_eq_ok_iff.2 ⟨h.locate_of_entry hq he true, he⟩

theorem stat_of_none (h : v.Holds places fs) (hq : Path.up ∉ v.first :: q)
    (hnone : fs.entry? (v.root ++ q) = none) :
    fs.stat (v.path q) = .error .notFound ∨
      fs.stat (v.path q) = .error .notDirectory ∧ v.Obstructs fs q := by
  rw [stat]
  refine (h.locate_of_none hq hnone true).imp (fun hfail ↦ ?_) fun hfail ↦ ?_
  · rw [hfail]
    rfl
  · rw [hfail.1]
    exact ⟨rfl, hfail.2⟩

theorem isDirectory_path_iff (h : v.Holds places fs) (hq : Path.up ∉ v.first :: q) :
    fs.isDirectory (v.path q) = true ↔ fs.entry? (v.root ++ q) = some .directory := by
  rw [isDirectory_iff]
  constructor
  · rintro ⟨l, hstat⟩
    cases he : fs.entry? (v.root ++ q) with
    | none =>
      rcases h.stat_of_none hq he with hfail | ⟨hfail, -⟩
      · rw [hfail] at hstat
        cases hstat
      · rw [hfail] at hstat
        cases hstat
    | some e =>
      rw [h.stat_of_entry hq he] at hstat
      simp only [Except.ok.injEq, Prod.mk.injEq] at hstat
      rw [hstat.2]
  · intro he
    exact ⟨_, h.stat_of_entry hq he⟩

/-- Something is put into a directory of the output, **in place** of what is no directory. -/
theorem replace (h : v.Holds places fs) {e : Entry}
    (hparent : fs.entry? (v.root ++ q).dropLast = some .directory)
    (hnew : ∀ e, fs.entry? (v.root ++ q) = some e → e ≠ .directory)
    (he : (e = .directory ∧ ∃ names, names ≠ [] ∧ q ++ names ∈ places) ∨
      q ∈ places ∧ ∃ content, e = .file content false) :
    v.Holds places (fs.put (v.root ++ q) e) := by
  have hne : v.root ++ q ≠ [] := by simp [v.root_ne_nil]
  refine ⟨?_, ?_, nodup_put h.nodup _ e, fun q' e' he' ↦ ?_⟩
  · rw [eraseTree_put (prefix_append _ _), h.erased]
  · obtain ⟨l, name, hl⟩ : ∃ l name, v.root ++ q = l ++ [name] :=
      ⟨_, _, (dropLast_concat_getLast hne).symm⟩
    rw [hl] at hnew hparent ⊢
    rw [dropLast_concat] at hparent
    exact h.nested.put hparent hnew
  · rw [entry?_put hne] at he'
    split at he'
    · next heq =>
      obtain rfl := append_cancel_left heq
      cases he'
      exact he
    · exact h.below q' e' he'

/-- Something **new** in a directory of the output. -/
theorem put (h : v.Holds places fs) {e : Entry}
    (hparent : fs.entry? (v.root ++ q).dropLast = some .directory)
    (hnone : fs.entry? (v.root ++ q) = none)
    (he : (e = .directory ∧ ∃ names, names ≠ [] ∧ q ++ names ∈ places) ∨
      q ∈ places ∧ ∃ content, e = .file content false) :
    v.Holds places (fs.put (v.root ++ q) e) ∧ fs.Keeps (fs.put (v.root ++ q) e) := by
  refine ⟨h.replace hparent (fun e he ↦ by simp [hnone] at he) he, fun l e' he' ↦ ?_⟩
  rw [entry?_put (by simp [v.root_ne_nil])]
  split
  · next heq =>
    rw [heq, hnone] at he'
    cases he'
  · exact he'

theorem dropLast_root_append (q : List Text) (name : Text) :
    (v.root ++ (q ++ [name])).dropLast = v.root ++ q := by
  rw [← append_assoc, dropLast_concat]

theorem dropLast_root : (v.root ++ []).dropLast = v.base := by
  rw [append_nil, root, dropLast_concat]

/-- Where the parent of a path is, if it is a **directory**. -/
theorem stat_parent (h : v.Holds places fs) (hq : Path.up ∉ v.first :: q)
    (hparent : fs.entry? (v.root ++ q).dropLast = some .directory) :
    ∃ d, fs.stat (v.path q).parent = .ok (d, .directory) ∧
      d ++ [(v.path q).name] = v.root ++ q := by
  rcases eq_nil_or_concat q with rfl | ⟨q, name, rfl⟩
  · have hpath : v.path [] = (⟨out.anchor, v.above⟩ : Path).child v.first := rfl
    refine ⟨v.base, ?_, ?_⟩
    · have hself : (v.path []).parent = ⟨out.anchor, v.above⟩ := by
        simp [hpath, Path.parent, Path.child]
      rw [hself]
      exact h.stat_base
    · simp [hpath, Path.name, Path.child, root]
  · rw [concat_eq_append] at hq hparent ⊢
    rw [dropLast_root_append] at hparent
    have hq' : Path.up ∉ v.first :: q := fun hup ↦ hq (by
      exact mem_append_left _ hup)
    refine ⟨v.root ++ q, ?_, ?_⟩
    · rw [v.parent_path_concat]
      exact h.stat_of_entry hq' hparent
    · rw [v.name_path_concat, append_assoc]

/-- Why the parent of a path is **no directory**: it is missing, or a file is in the way. -/
theorem newLocation_of_parent (h : v.Holds places fs) (hq : Path.up ∉ v.first :: q)
    (hparent : fs.entry? (v.root ++ q).dropLast ≠ some .directory) :
    fs.newLocation (v.path q) = .error .notFound ∨
      fs.newLocation (v.path q) = .error .notDirectory ∧ v.Obstructs fs q := by
  rcases eq_nil_or_concat q with rfl | ⟨q, name, rfl⟩
  · rw [dropLast_root] at hparent
    exact absurd h.entry?_base hparent
  · rw [concat_eq_append] at hq hparent ⊢
    rw [dropLast_root_append] at hparent
    have hq' : Path.up ∉ v.first :: q := fun hup ↦ hq (mem_append_left [name] hup)
    rw [newLocation, v.parent_path_concat]
    cases he : fs.entry? (v.root ++ q) with
    | none =>
      refine (h.stat_of_none hq' he).imp (fun hfail ↦ ?_) fun hfail ↦ ?_
      · rw [hfail]
        rfl
      · rw [hfail.1]
        exact ⟨rfl, hfail.2.append [name]⟩
    | some e =>
      rw [h.stat_of_entry hq' he]
      rcases h.below q e he with ⟨rfl, -⟩ | ⟨-, content, rfl⟩
      · exact absurd he hparent
      · exact .inr ⟨rfl, q, [name], content, false, rfl, he⟩

/-- What comes of **making a directory** below the root: it is made; or it is missing, and so is the
directory above it; or something is there already, or a file is in the way. -/
theorem makeDirectory_cases (h : v.Holds places fs) (hq : Path.up ∉ v.first :: q) :
    (fs.makeDirectory (v.path q) = .ok (fs.put (v.root ++ q) .directory) ∧
        fs.entry? (v.root ++ q) = none ∧ fs.entry? (v.root ++ q).dropLast = some .directory) ∨
      ∃ e, fs.makeDirectory (v.path q) = .error e ∧
        (e.cause = .notFound ∧ fs.entry? (v.root ++ q).dropLast ≠ some .directory ∨
          e.cause ≠ .notFound ∧
            ((∃ found, fs.entry? (v.root ++ q) = some found) ∨ v.Obstructs fs q)) := by
  rw [makeDirectory]
  cases he : fs.entry? (v.root ++ q) with
  | some found =>
    rw [h.locate_of_entry hq he]
    exact .inr ⟨_, rfl, .inr ⟨by simp, .inl ⟨found, rfl⟩⟩⟩
  | none =>
    rcases h.locate_of_none hq he false with hfail | ⟨hfail, hfile⟩
    · rw [hfail]
      by_cases hparent : fs.entry? (v.root ++ q).dropLast = some .directory
      · obtain ⟨d, hstat, hd⟩ := h.stat_parent hq hparent
        refine .inl ⟨?_, rfl, hparent⟩
        rw [← hd]
        simp [newLocation, hstat, bind, Except.bind, failAt]
      · rcases h.newLocation_of_parent hq hparent with hnew | ⟨hnew, hfile⟩
        · rw [hnew]
          exact .inr ⟨_, rfl, .inl ⟨rfl, hparent⟩⟩
        · rw [hnew]
          exact .inr ⟨_, rfl, .inr ⟨by simp, .inr hfile⟩⟩
    · rw [hfail]
      exact .inr ⟨_, rfl, .inr ⟨by simp, .inr hfile⟩⟩

/-- In a directory, **nothing is in the way**. -/
theorem not_obstructs (h : v.Holds places fs)
    (hparent : fs.entry? (v.root ++ q).dropLast = some .directory)
    (hnone : fs.entry? (v.root ++ q) = none) : ¬ v.Obstructs fs q := by
  rintro ⟨before, after, content, executable, rfl, hfile⟩
  by_cases hafter : after = []
  · rw [hafter, append_nil, hfile] at hnone
    cases hnone
  · rw [← append_assoc, dropLast_append_of_ne_nil hafter] at hparent
    by_cases hlast : after.dropLast = []
    · rw [hlast, append_nil, hfile] at hparent
      cases hparent
    · rw [h.nested.directory_of_prefix hlast hparent] at hfile
      cases hfile

/-- What comes of **writing a file** in a directory below the root where there is no file yet: it is
written, or a directory is there. -/
theorem write_cases (h : v.Holds places fs) (hq : Path.up ∉ v.first :: q)
    (hparent : fs.entry? (v.root ++ q).dropLast = some .directory)
    (hfile : ∀ content executable, fs.entry? (v.root ++ q) ≠ some (.file content executable))
    (bytes : Bytes) :
    (fs.write (v.path q) bytes = .ok (fs.put (v.root ++ q) (.file bytes false)) ∧
        fs.entry? (v.root ++ q) = none) ∨
      ∃ e, fs.write (v.path q) bytes = .error e ∧ fs.entry? (v.root ++ q) = some .directory := by
  rw [write]
  cases he : fs.entry? (v.root ++ q) with
  | some found =>
    rw [h.stat_of_entry hq he]
    rcases h.below q found he with ⟨rfl, -⟩ | ⟨-, content, rfl⟩
    · exact .inr ⟨_, rfl, rfl⟩
    · exact absurd he (hfile content false)
  | none =>
    obtain ⟨d, hstat, hd⟩ := h.stat_parent hq hparent
    have hmissing : fs.stat (v.path q) = .error .notFound :=
      (h.stat_of_none hq he).resolve_right fun hfail ↦ h.not_obstructs hparent he hfail.2
    have hnew : fs.creationLocation linkLimit (v.path q) = .ok (v.root ++ q) := by
      rw [linkLimit, creationLocation, newLocation, hstat]
      simp only [bind, Except.bind, hd, he]
    rw [hmissing]
    exact .inl ⟨by simp [hnew, failAt, bind, Except.bind], rfl⟩

/-! ### Operations that succeed -/

/-- A directory that is **made** on the way to a place is part of the output. -/
theorem of_makeDirectory (h : v.Holds places fs) (hq : Path.up ∉ v.first :: q)
    (hplace : ∃ names, names ≠ [] ∧ q ++ names ∈ places)
    (hmade : fs.makeDirectory (v.path q) = .ok fs') : v.Holds places fs' := by
  rcases h.makeDirectory_cases hq with ⟨hok, hnone, hparent⟩ | ⟨e, herror, -⟩
  · rw [hok] at hmade
    cases hmade
    exact (h.put hparent hnone (.inl ⟨rfl, hplace⟩)).1
  · rw [herror] at hmade
    cases hmade

/-- **At the root** nothing is missing for making a directory, since the base is there. -/
theorem ne_notFound_of_makeDirectory (h : v.Holds places fs) (hfirst : Path.up ∉ [v.first])
    {e : OsError} (hmake : fs.makeDirectory (v.path []) = .error e) : e.cause ≠ .notFound := by
  rcases h.makeDirectory_cases hfirst with ⟨hok, -⟩ | ⟨e', herror, hcause⟩
  · rw [hok] at hmake
    cases hmake
  · obtain rfl : e' = e := Except.error.inj (herror.symm.trans hmake)
    rcases hcause with ⟨-, hbase⟩ | ⟨hother, -⟩
    · rw [dropLast_root] at hbase
      exact absurd h.entry?_base hbase
    · exact hother

/-- So are all the directories that are made **above** a place. No directory is made above the root,
since the base is there. -/
theorem of_makeParentsFrom {n : Nat} (h : v.Holds places fs) (hq : Path.up ∉ v.first :: q)
    (hplace : ∃ names, names ≠ [] ∧ q ++ names ∈ places)
    (hmade : makeParentsFrom n fs (v.path q) = .ok fs') : v.Holds places fs' := by
  induction n generalizing q fs' with
  | zero => exact h.of_makeDirectory hq hplace hmade
  | succ n ih =>
    rw [makeParentsFrom] at hmade
    cases hmake : fs.makeDirectory (v.path q) with
    | ok fs₁ =>
      simp only [hmake, Except.ok.injEq] at hmade
      exact hmade ▸ h.of_makeDirectory hq hplace hmake
    | error e =>
      simp only [hmake] at hmade
      split at hmade
      · next hmissing =>
        rcases eq_nil_or_concat q with rfl | ⟨q, name, rfl⟩
        · exact absurd hmissing.1 (h.ne_notFound_of_makeDirectory hq hmake)
        · rw [concat_eq_append] at hq hplace hmade
          obtain ⟨names, hnames, hmem⟩ := hplace
          rw [v.parent_path_concat] at hmade
          cases habove : makeParentsFrom n fs (v.path q) with
          | error e' => simp [habove] at hmade
          | ok fs₁ =>
            have h₁ : v.Holds places fs₁ := by
              refine ih (fun hup ↦ hq (mem_append_left [name] hup))
                ⟨name :: names, by simp, ?_⟩ habove
              rwa [append_cons]
            simp only [habove] at hmade
            cases hagain : fs₁.makeDirectory (v.path (q ++ [name])) with
            | ok fs₂ =>
              simp only [hagain, Except.ok.injEq] at hmade
              exact hmade ▸ h₁.of_makeDirectory hq ⟨names, hnames, hmem⟩ hagain
            | error e' =>
              simp only [hagain] at hmade
              split at hmade
              · exact Except.ok.inj hmade ▸ h₁
              · cases hmade
      · split at hmade
        · exact Except.ok.inj hmade ▸ h
        · cases hmade

/-- A file that is **written** at a place is part of the output, whether or not there was one. -/
theorem of_write (h : v.Holds places fs) (hq : Path.up ∉ v.first :: q) (hplace : q ∈ places)
    {bytes : Bytes} (hwritten : fs.write (v.path q) bytes = .ok fs') : v.Holds places fs' := by
  have he : q ∈ places ∧ ∃ content, Entry.file bytes false = .file content false :=
    ⟨hplace, bytes, rfl⟩
  by_cases hparent : fs.entry? (v.root ++ q).dropLast = some .directory
  · by_cases hfile : ∃ content executable, fs.entry? (v.root ++ q) = some (.file content executable)
    · obtain ⟨content, executable, hfile⟩ := hfile
      obtain rfl : executable = false := by
        rcases h.below q _ hfile with ⟨hdir, -⟩ | ⟨-, content', hfile'⟩
        · cases hdir
        · exact (Entry.file.inj hfile').2
      have hput : fs.write (v.path q) bytes = .ok (fs.put (v.root ++ q) (.file bytes false)) := by
        rw [write, h.stat_of_entry hq hfile]
        rfl
      rw [hput] at hwritten
      cases hwritten
      refine h.replace hparent (fun e hsome ↦ ?_) (.inr he)
      rw [hfile] at hsome
      exact Option.some.inj hsome ▸ Entry.noConfusion
    · rcases h.write_cases hq hparent (fun content executable h ↦ hfile ⟨_, _, h⟩) bytes with
        ⟨hput, hnone⟩ | ⟨e, herror, -⟩
      · rw [hput] at hwritten
        cases hwritten
        exact (h.put hparent hnone (.inr he)).1
      · rw [herror] at hwritten
        cases hwritten
  · -- Where there is no directory for it, no file is written.
    have hnone : fs.entry? (v.root ++ q) = none := by
      by_contra hsome
      obtain ⟨e, hsome⟩ := Option.ne_none_iff_exists'.1 hsome
      have hne : v.root ++ q ≠ [] := by simp [v.root_ne_nil]
      rw [← dropLast_concat_getLast hne] at hsome
      exact hparent (h.nested _ _ _ hsome)
    have hnew : ∃ cause, fs.creationLocation linkLimit (v.path q) = .error cause := by
      rw [linkLimit, creationLocation]
      rcases h.newLocation_of_parent hq hparent with hfail | ⟨hfail, -⟩
      · rw [hfail]
        exact ⟨_, rfl⟩
      · rw [hfail]
        exact ⟨_, rfl⟩
    obtain ⟨cause, hnew⟩ := hnew
    rw [write] at hwritten
    rcases h.stat_of_none hq hnone with hfail | ⟨hfail, -⟩
    · simp [hfail, hnew, failAt, bind, Except.bind] at hwritten
    · simp [hfail, failAt] at hwritten

end Holds

end Vacancy

end ScriptTree
