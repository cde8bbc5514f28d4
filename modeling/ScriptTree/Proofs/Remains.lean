import ScriptTree.Proofs.EveryOrder
import ScriptTree.Proofs.Trail

/-!
# What a build leaves

What an action did before it failed stays done. So it is not enough to know what a build returns:
this module says what file system it **leaves**, however it ends.

Two facts carry everything. Clearing the output directory always succeeds, unless a link that leads
nowhere stands there, and it leaves exactly the file system *without* what stood at that path
(`returns_resetOutput`). From there on, either nothing is written at all, because there is no
vacancy for the output, or all that is written is output in that vacancy (`grown_writeTree`). Which
of the two it is does not depend on where the writing stops.

The proofs go through one notion for programs: an action **respects** a relation between file
systems if it ends in the same way from related ones and leaves related ones. A property that an
action keeps is the case in which the two file systems are the same.

## Main results

* `respects_writeFiles`: writing files respects what writing each of them respects.
* `returns_resetOutput`: what clearing an output directory leaves.
* `grown_writeTree`: what a build leaves from there on.
-/

namespace ScriptTree

open List ScriptTree.Action
open FileSystem

/-- Two outcomes **correspond**: both fail in the same way, or both succeed with related results. -/
inductive Corresponds {ε α β : Type} (R : α → β → Prop) : Except ε α → Except ε β → Prop
  | error (e : ε) : Corresponds R (.error e) (.error e)
  | ok {a : α} {b : β} (h : R a b) : Corresponds R (.ok a) (.ok b)

theorem Corresponds.exists_eq {ε α β : Type} {R : α → β → Prop} {x : Except ε α} {y : Except ε β}
    (h : Corresponds R x y) :
    (∃ e, x = .error e ∧ y = .error e) ∨ ∃ a b, x = .ok a ∧ y = .ok b ∧ R a b := by
  cases h with
  | error e => exact .inl ⟨e, rfl, rfl⟩
  | ok h => exact .inr ⟨_, _, rfl, rfl, h⟩

/-! ### How actions end -/

namespace Action

variable {α β : Type} {fs fs' : FileSystem} {x : Action α} {f : α → Action β}

theorem run_bind_of_returns {a : α} (h : x.Returns fs a fs') :
    (x >>= f).run.run fs = (f a).run.run fs' := by
  show (ExceptT.bindCont f (x.run.run fs).1 : StateM FileSystem _).run (x.run.run fs).2 = _
  rw [h]
  rfl

theorem run_bind_of_error {e : Failure} (h : x.run.run fs = (.error e, fs')) :
    (x >>= f).run.run fs = (.error e, fs') := by
  show (ExceptT.bindCont f (x.run.run fs).1 : StateM FileSystem _).run (x.run.run fs).2 = _
  rw [h]
  rfl

/-- What two steps **leave**: the first leaves something with a property, and so does the second
from there if it is made at all. -/
theorem leaves_bind {P : FileSystem → Prop} (hx : P (x.run.run fs).2)
    (hf : ∀ a fs', x.Returns fs a fs' → P fs' → P ((f a).run.run fs').2) :
    P ((x >>= f).run.run fs).2 := by
  cases hend : (x.run.run fs).1 with
  | error e =>
    have hrun : x.run.run fs = (.error e, (x.run.run fs).2) := Prod.ext hend rfl
    rwa [run_bind_of_error hrun]
  | ok a =>
    have hrun : x.Returns fs a (x.run.run fs).2 := Prod.ext hend rfl
    rw [run_bind_of_returns hrun]
    exact hf a _ hrun hx

theorem run_find (find? : FileSystem → Except Failure α) :
    (find find?).run.run fs = (find? fs, fs) := by
  have hget : (get : Action FileSystem).Returns fs fs fs := rfl
  rw [find, run_bind_of_returns hget]
  cases find? fs with
  | ok a => rfl
  | error e => rfl

theorem run_change_of_error {change? : FileSystem → Except OsError FileSystem}
    {failed : OsError → Failure} {e : OsError} (h : change? fs = .error e) :
    (change change? failed).run.run fs = (.error (failed e), fs) := by
  have hget : (get : Action FileSystem).Returns fs fs fs := rfl
  rw [change, run_bind_of_returns hget, h]
  rfl

theorem run_tryCatch_of_error {handle : Failure → Action α} {e : Failure}
    (h : x.run.run fs = (.error e, fs')) :
    (tryCatch x handle).run.run fs = (handle e).run.run fs' := by
  have hstep : StateT.run x fs = (.error e, fs') := h
  show StateT.run (ExceptT.tryCatch x handle) fs = _
  rw [ExceptT.tryCatch, ExceptT.mk, StateT.run_bind, hstep]
  rfl

/-! ### What actions respect -/

/-- An action **respects** a relation: from related file systems it ends in the same way, and it
leaves related ones. -/
def Respects (R : FileSystem → FileSystem → Prop) (x : Action α) : Prop :=
  ∀ fs fs', R fs fs' →
    (x.run.run fs).1 = (x.run.run fs').1 ∧ R (x.run.run fs).2 (x.run.run fs').2

variable {R : FileSystem → FileSystem → Prop}

theorem respects_pure (a : α) : (pure a : Action α).Respects R :=
  fun _ _ h ↦ ⟨rfl, h⟩

theorem respects_throw (e : Failure) : (throw e : Action α).Respects R :=
  fun _ _ h ↦ ⟨rfl, h⟩

/-- What goes on after an action need respect the relation only for the results that it **can**
have. -/
theorem Respects.bind (hx : x.Respects R)
    (hf : ∀ a, (∃ fs fs₁ fs', R fs fs₁ ∧ x.Returns fs a fs') → (f a).Respects R) :
    (x >>= f).Respects R := by
  intro fs fs' h
  obtain ⟨hsame, hleft⟩ := hx fs fs' h
  cases hend : (x.run.run fs).1 with
  | error e =>
    have hrun : x.run.run fs = (.error e, (x.run.run fs).2) := Prod.ext hend rfl
    have hrun' : x.run.run fs' = (.error e, (x.run.run fs').2) := Prod.ext (hsame ▸ hend) rfl
    rw [run_bind_of_error hrun, run_bind_of_error hrun']
    exact ⟨rfl, hleft⟩
  | ok a =>
    have hrun : x.Returns fs a (x.run.run fs).2 := Prod.ext hend rfl
    have hrun' : x.Returns fs' a (x.run.run fs').2 := Prod.ext (hsame ▸ hend) rfl
    rw [run_bind_of_returns hrun, run_bind_of_returns hrun']
    exact hf a ⟨fs, fs', _, h, hrun⟩ _ _ hleft

theorem respects_find {find? : FileSystem → Except Failure α}
    (h : ∀ fs fs', R fs fs' → find? fs = find? fs') : (find find?).Respects R := by
  intro fs fs' hfs
  rw [run_find, run_find]
  exact ⟨h fs fs' hfs, hfs⟩

theorem respects_change {change? : FileSystem → Except OsError FileSystem}
    {failed : OsError → Failure}
    (h : ∀ fs fs', R fs fs' → Corresponds R (change? fs) (change? fs')) :
    (change change? failed).Respects R := by
  intro fs fs' hfs
  rcases (h fs fs' hfs).exists_eq with ⟨e, hfail, hfail'⟩ | ⟨left, left', hok, hok', hleft⟩
  · rw [run_change_of_error hfail, run_change_of_error hfail']
    exact ⟨rfl, hfs⟩
  · have hrun : (change change? failed).run.run fs = (.ok (), left) := returns_change.2 hok
    have hrun' : (change change? failed).run.run fs' = (.ok (), left') := returns_change.2 hok'
    rw [hrun, hrun']
    exact ⟨rfl, hleft⟩

theorem respects_tryCatch {handle : Failure → Action α} (hx : x.Respects R)
    (hhandle : ∀ e, (handle e).Respects R) : (tryCatch x handle).Respects R := by
  intro fs fs' h
  obtain ⟨hsame, hleft⟩ := hx fs fs' h
  cases hend : (x.run.run fs).1 with
  | error e =>
    have hrun : x.run.run fs = (.error e, (x.run.run fs).2) := Prod.ext hend rfl
    have hrun' : x.run.run fs' = (.error e, (x.run.run fs').2) := Prod.ext (hsame ▸ hend) rfl
    rw [run_tryCatch_of_error hrun, run_tryCatch_of_error hrun']
    exact hhandle e _ _ hleft
  | ok a =>
    have hrun : (tryCatch x handle).run.run fs = (.ok a, (x.run.run fs).2) :=
      returns_tryCatch.2 (.inl (Prod.ext hend rfl))
    have hrun' : (tryCatch x handle).run.run fs' = (.ok a, (x.run.run fs').2) :=
      returns_tryCatch.2 (.inl (Prod.ext (hsame ▸ hend) rfl))
    rw [hrun, hrun']
    exact ⟨rfl, hleft⟩

/-- An action **preserves** a property of the file system, however it ends. -/
def Preserves (P : FileSystem → Prop) (x : Action α) : Prop :=
  x.Respects fun fs fs' ↦ fs = fs' ∧ P fs

variable {P : FileSystem → Prop}

theorem Preserves.run (h : x.Preserves P) (hfs : P fs) : P (x.run.run fs).2 :=
  (h fs fs ⟨rfl, hfs⟩).2.2

theorem preserves_find (find? : FileSystem → Except Failure α) : (find find?).Preserves P := by
  refine respects_find fun fs fs' h ↦ ?_
  rw [h.1]

theorem preserves_change {change? : FileSystem → Except OsError FileSystem}
    {failed : OsError → Failure} (h : ∀ fs fs', P fs → change? fs = .ok fs' → P fs') :
    (change change? failed).Preserves P := by
  refine respects_change ?_
  rintro fs _ ⟨rfl, hfs⟩
  cases hchange : change? fs with
  | error e => exact .error e
  | ok left => exact .ok ⟨rfl, h fs left hfs hchange⟩

end Action

/-! ### Clearing -/

namespace FileSystem

variable {fs : FileSystem} {p : Path} {l : Location}

/-- The file system **without** what stands at a path: a directory goes with all that is below it,
and a link by itself. -/
def without (fs : FileSystem) (p : Path) : FileSystem :=
  match fs.locate false p with
  | .ok l => fs.eraseTree l
  | .error _ => fs

theorem without_of_locate (h : fs.locate false p = .ok l) : fs.without p = fs.eraseTree l := by
  rw [without, h]

theorem without_of_error {cause : OsCause} (h : fs.locate false p = .error cause) :
    fs.without p = fs := by
  rw [without, h]

theorem cwd_without (fs : FileSystem) (p : Path) : (fs.without p).cwd = fs.cwd := by
  rw [without]
  split <;> rfl

theorem keeps_without (fs : FileSystem) (p : Path) : (fs.without p).Keeps fs := by
  rw [without]
  split
  · next l _ => exact keeps_of_filter (fun k ↦ !l.isPrefixOf k) rfl
  · exact .refl fs

theorem IsTree.without (h : fs.IsTree) (p : Path) : (fs.without p).IsTree := by
  rw [FileSystem.without]
  split
  · exact h.eraseTree _
  · exact h

theorem isLink_iff :
    fs.isLink p = true ↔ ∃ l target, fs.locate false p = .ok l ∧
      fs.entry? l = some (.link target) := by
  rw [isLink]
  cases fs.locate false p with
  | error cause => simp
  | ok l =>
    cases he : fs.entry? l with
    | none => simp [he]
    | some e => cases e <;> simp [he]

/-- A **directory** is removed with all that is below it. -/
theorem removeTree_eq_without (hlocate : fs.locate false p = .ok l)
    (he : fs.entry? l = some .directory) : fs.removeTree p = .ok (fs.without p) := by
  rw [without_of_locate hlocate, removeTree, hlocate]
  simp [he, failAt, bind, Except.bind]

/-- A **file or a link** is removed by itself, and nothing is below it. -/
theorem Nested.unlink_eq_without (h : fs.Nested) (hlocate : fs.locate false p = .ok l) {e : Entry}
    (he : fs.entry? l = some e) (hne : e ≠ .directory) : fs.unlink p = .ok (fs.without p) := by
  rw [without_of_locate hlocate, ← h.erase_eq_eraseTree (by simp [he, hne]), unlink, hlocate]
  cases e with
  | directory => exact absurd rfl hne
  | file content executable => simp [he, failAt, bind, Except.bind]
  | link target => simp [he, failAt, bind, Except.bind]

/-- Where a path leads nowhere and no link stands there, there is **nothing**. -/
theorem entry?_eq_none_of_gone (hgone : fs.exists_ p = false) (hlink : fs.isLink p = false)
    (hlocate : fs.locate false p = .ok l) : fs.entry? l = none := by
  by_contra hsome
  obtain ⟨e, he⟩ := Option.ne_none_iff_exists'.1 hsome
  -- Something that is no link would be found.
  have hnolink (target : Text) : e ≠ .link target := by
    rintro rfl
    exact Bool.false_ne_true (hlink.symm.trans (isLink_iff.2 ⟨l, target, hlocate, he⟩))
  have hstat := stat_of_locate_false hlocate he hnolink
  exact Bool.false_ne_true (hgone.symm.trans (exists_iff.2 ⟨l, e, hstat⟩))

theorem Nested.without_eq_self (h : fs.Nested) (hgone : fs.exists_ p = false)
    (hlink : fs.isLink p = false) : fs.without p = fs := by
  cases hlocate : fs.locate false p with
  | error cause => exact without_of_error hlocate
  | ok l =>
    rw [without_of_locate hlocate]
    exact h.eraseTree_eq_self (entry?_eq_none_of_gone hgone hlink hlocate)

/-- Without what stands at a path, the path leads **nowhere**. -/
theorem exists_without (fs : FileSystem) (hp : p.IsProper) (hparts : p.parts ≠ []) :
    (fs.without p).exists_ p = false := by
  cases hlocate : fs.locate false p with
  | error cause =>
    rw [without_of_error hlocate]
    by_contra hexists
    obtain ⟨l, e, hstat⟩ := exists_iff.1 (eq_true_of_ne_false hexists)
    obtain ⟨k, hk, -⟩ := exists_locate_false hp.absolute hstat
    rw [hlocate] at hk
    cases hk
  | ok l =>
    by_cases hl : l = []
    · -- Nothing at all is left.
      rw [without_of_locate hlocate, hl]
      obtain ⟨name, rest, hnames⟩ := exists_cons_of_ne_nil hparts
      have hname : name ≠ Path.up := (hp.names name (by simp [hnames])).2
      have hfail : (fs.eraseTree []).locate true p = .error .notFound := by
        rw [locate_of_isAbsolute hp.absolute, hnames]
        exact descend_none rfl hname (by simp [ entry?, eraseTree])
      rw [exists_, stat, hfail]
      rfl
    · refine exists_eq_false_of_removed hp.absolute hlocate (keeps_without fs p) ?_
      rw [without_of_locate hlocate, entry?_eraseTree hl, if_pos prefix_rfl]

/-- And **no link** stands there. -/
theorem isLink_without (fs : FileSystem) (hp : p.isAbsolute = true) :
    (fs.without p).isLink p = false := by
  by_contra hlink
  obtain ⟨l, target, hlocate, he⟩ := isLink_iff.1 (eq_true_of_ne_false hlink)
  have hl : l ≠ [] := by
    rintro rfl
    cases he
  rw [without_of_locate (locate_of_keeps (keeps_without fs p) hp hlocate), entry?_eraseTree hl,
    if_pos prefix_rfl] at he
  cases he

/-- A directory to which the way does not lead **through** what stands at a path is still there
without that. -/
theorem isDirectory_without {out : Path} (hp : p.isAbsolute = true) (hway : ¬ fs.OnWay out p)
    (h : fs.isDirectory p = true) : (fs.without out).isDirectory p = true := by
  obtain ⟨l, hstat⟩ := isDirectory_iff.1 h
  refine isDirectory_iff.2 ⟨l, (stat_iff_trail (keeps_without fs out) hp hstat).2 ?_⟩
  intro k hk hnone
  have hthere := (stat_iff_trail (.refl fs) hp hstat).1 hstat k hk
  cases hlocate : fs.locate false out with
  | error cause =>
    rw [without_of_error hlocate] at hnone
    exact hthere hnone
  | ok r =>
    rw [without_of_locate hlocate, entry?_eraseTree_eq_none_iff] at hnone
    rcases hnone with ⟨hne, hbelow⟩ | hnone
    · exact hway ⟨r, hlocate, k, hk, hne, hbelow⟩
    · exact hthere hnone

end FileSystem

variable {fs cleared : FileSystem} {out : Path}

/-- **Clearing succeeds**, unless a link that leads nowhere stands at the path, and it leaves what
there is without the output directory. -/
theorem returns_resetOutput (hfs : fs.Nested) (hout : out.isAbsolute = true)
    (hlink : fs.isLink out = true → fs.exists_ out = true) {entry : Path}
    (hentry : entry.isBelow out = false) :
    (resetOutput out entry).Returns fs () (fs.without out) := by
  have hcheck : (Action.find fun _ ↦ checkOutput out entry).Returns fs () fs := by
    refine returns_find.2 ⟨?_, rfl⟩
    rw [checkOutput, if_neg (by simp [hentry])]
  have hget : (get : Action FileSystem).Returns fs fs fs := rfl
  refine returns_bind.2 ⟨(), fs, hcheck, returns_bind.2 ⟨fs, fs, hget, ?_⟩⟩
  by_cases hexists : fs.exists_ out = true
  · rw [if_pos hexists]
    obtain ⟨l, e, hstat⟩ := exists_iff.1 hexists
    obtain ⟨r, hlocate, hsome⟩ := exists_locate_false hout hstat
    obtain ⟨found, hfound⟩ := Option.isSome_iff_exists.1 hsome
    by_cases hdirectory : found = .directory
    · -- A directory leads to itself, so that it is taken for one.
      subst hdirectory
      have hdir : fs.isDirectory out = true :=
        isDirectory_iff.2 ⟨r, stat_of_locate_false hlocate hfound (by simp)⟩
      have hnolink : fs.isLink out = false := by
        simp [isLink, hlocate, hfound]
      rw [if_pos (by simp [hdir, hnolink])]
      exact returns_change.2 (removeTree_eq_without hlocate hfound)
    · rw [if_neg]
      · exact returns_change.2 (hfs.unlink_eq_without hlocate hfound hdirectory)
      · -- What is taken for a directory is a link or a directory.
        rw [Bool.and_eq_true, Bool.not_eq_true']
        rintro ⟨hdir, hnolink⟩
        have hstat' : fs.stat out = .ok (r, found) := by
          refine stat_of_locate_false hlocate hfound fun target htarget ↦ ?_
          exact Bool.false_ne_true
            (hnolink.symm.trans (isLink_iff.2 ⟨r, target, hlocate, htarget ▸ hfound⟩))
        obtain ⟨l', hdir⟩ := isDirectory_iff.1 hdir
        rw [hstat'] at hdir
        exact hdirectory (Prod.mk.inj (Except.ok.inj hdir)).2
  · rw [if_neg hexists]
    have hgone := eq_false_of_ne_true hexists
    rw [hfs.without_eq_self hgone (eq_false_of_ne_true fun h ↦ hexists (hlink h))]
    rfl

/-! ### Writing files -/

section Writing

variable {R : FileSystem → FileSystem → Prop} {P : FileSystem → Prop} {g : Graph} {plan : Plan}

/-- One file after the other is written, so all respect what writing **each** of them respects. -/
theorem respects_writeFiles {files : List SourceFile}
    (h : ∀ file ∈ files, (writeFile g plan file).Respects R) :
    (writeFiles g plan files).Respects R := by
  induction files with
  | nil => exact respects_pure ()
  | cons file files ih =>
    -- A file that fails does not keep the others from being written.
    have htry : (writeFile g plan file >>= fun _ ↦
        (pure none : Action (Option Failure))).Respects R :=
      .bind (h file mem_cons_self) fun _ _ ↦ respects_pure none
    refine .bind (respects_tryCatch htry fun e ↦ respects_pure (some e))
      fun failed _ ↦ ?_
    refine .bind (ih fun other hother ↦ h other (mem_cons_of_mem _ hother)) fun _ _ ↦ ?_
    cases failed with
    | none => exact respects_pure ()
    | some e => exact respects_throw e

theorem preserves_writeOutput {target : Path} {text : Text}
    (hparents : ∀ fs fs', P fs → fs.makeParents target.parent = .ok fs' → P fs')
    (hwrite : ∀ fs fs' bytes, P fs → fs.write target bytes = .ok fs' → P fs') :
    (writeOutput target text).Preserves P := by
  refine .bind (preserves_change hparents) fun _ _ ↦ ?_
  cases Utf8.encode? text with
  | ok bytes => exact preserves_change fun fs fs' ↦ hwrite fs fs' bytes
  | error e =>
    exact .bind (preserves_change fun fs fs' ↦ hwrite fs fs' [])
      fun _ _ ↦ respects_throw _

/-- A file is written to its **target**, once its text is found. -/
theorem preserves_writeFile_of_target (hlaid : plan.LaysOut g out) {file : SourceFile}
    (hfile : file ∈ g.files)
    (h : ∀ text, (writeOutput (out.append (plan.namesOf file.path)) text).Preserves P) :
    (writeFile g plan file).Preserves P := by
  refine .bind (preserves_find _) fun text _ ↦ ?_
  refine .bind (preserves_find _) fun target htarget ↦ ?_
  obtain ⟨fs, -, fs', -, hreturns⟩ := htarget
  have htarget := (returns_find.1 hreturns).1
  rw [hlaid.targetFor hfile] at htarget
  cases htarget
  exact h text

/-- In a vacancy, whatever a file comes to, **output** stands there in the end. -/
theorem Vacancy.preserves_writeFile {v : Vacancy cleared out} (hlaid : plan.LaysOut g out)
    {file : SourceFile} (hfile : file ∈ g.files) :
    (writeFile g plan file).Preserves (v.Holds (g.files.map (v.placeOf plan))) := by
  refine preserves_writeFile_of_target hlaid hfile fun text ↦ ?_
  have hproper := proper_place (v := v) hlaid hfile
  have hplace : v.placeOf plan file ∈ g.files.map (v.placeOf plan) := mem_map_of_mem hfile
  have hpath : out.append (plan.namesOf file.path) = v.path (v.placeOf plan file) :=
    v.append_eq_path _
  obtain ⟨q, name, hq⟩ : ∃ q name, v.placeOf plan file = q ++ [name] :=
    ⟨_, _, (dropLast_concat_getLast (by simp [placeOf, hlaid.named file hfile])).symm⟩
  rw [hpath, hq]
  rw [hq] at hproper hplace
  refine preserves_writeOutput (fun fs fs' h hmade ↦ ?_)
    fun fs fs' bytes h ↦ h.of_write hproper hplace
  rw [v.parent_path_concat] at hmade
  exact h.of_makeParentsFrom (fun hup ↦ hproper (mem_append_left [name] hup))
    ⟨[name], by simp, hplace⟩ hmade

/-- Without a vacancy **nothing** is written. -/
theorem preserves_writeFile_of_full (hfull : ¬ Nonempty (Vacancy cleared out)) (hout : out.IsProper)
    (hgone : cleared.exists_ out = false) (hlaid : plan.LaysOut g out) {file : SourceFile}
    (hfile : file ∈ g.files) : (writeFile g plan file).Preserves (· = cleared) := by
  refine preserves_writeFile_of_target hlaid hfile fun text ↦ ?_
  obtain ⟨names, name, hnames⟩ : ∃ names name, plan.namesOf file.path = names ++ [name] :=
    ⟨_, _, (dropLast_concat_getLast (hlaid.named file hfile)).symm⟩
  rw [hnames]
  -- The directories above the target cannot be made, so that writing is not even tried.
  have hunmade (fs' : FileSystem) :
      cleared.makeParents (out.append (names ++ [name])).parent ≠ .ok fs' := by
    rw [parent_append_concat]
    exact fun hmade ↦ hfull (exists_vacancy hout hgone hmade)
  refine .bind (preserves_change ?_) fun _ hmade ↦ ?_
  · rintro fs fs' rfl hmade
    exact absurd hmade (hunmade fs')
  · obtain ⟨fs, fs₁, fs', ⟨-, rfl⟩, hmade⟩ := hmade
    exact absurd (returns_change.1 hmade) (hunmade fs')

end Writing

/-! ### Building -/

/-- What writing into a cleared output directory **leaves**: it is as before, or output has grown in
a vacancy. -/
def Grown (cleared : FileSystem) (out : Path) (fs : FileSystem) : Prop :=
  fs = cleared ∨ ∃ (v : Vacancy cleared out) (places : List (List Text)),
    (∀ q ∈ places, ∃ names, names ≠ [] ∧ q = v.rest ++ names) ∧ v.Holds places fs

/-- Whatever comes of writing the files of a plan, it leaves **output** in a vacancy or nothing. -/
theorem grown_writeFiles (hcleared : cleared.IsTree) (hgone : cleared.exists_ out = false)
    (hout : out.IsProper) {g : Graph} {plan : Plan} (hlaid : plan.LaysOut g out) :
    Grown cleared out ((writeFiles g plan g.files).run.run cleared).2 := by
  by_cases hfull : Nonempty (Vacancy cleared out)
  · obtain ⟨v⟩ := hfull
    have hkeep : (writeFiles g plan g.files).Preserves (v.Holds (g.files.map (v.placeOf plan))) :=
      respects_writeFiles fun file hfile ↦ v.preserves_writeFile hlaid hfile
    refine .inr ⟨v, _, fun q hq ↦ ?_, hkeep.run (v.holds_cleared hcleared _)⟩
    obtain ⟨file, hfile, rfl⟩ := mem_map.1 hq
    exact ⟨_, hlaid.named file hfile, rfl⟩
  · have hkeep : (writeFiles g plan g.files).Preserves (· = cleared) :=
      respects_writeFiles fun file hfile ↦
        preserves_writeFile_of_full hfull hout hgone hlaid hfile
    exact .inl (hkeep.run rfl)

/-- So it is with **all** that a build does once the output directory is cleared. -/
theorem grown_writeTree (hcleared : cleared.IsTree) (hgone : cleared.exists_ out = false)
    (hout : out.IsProper) {start : Path} (hstart : start.IsProper) (config : Config) :
    Grown cleared out ((writeTree config start out).run.run cleared).2 := by
  -- Finding something changes nothing, so that only the files that are written count.
  have hfind {α : Type} (find? : FileSystem → Except Failure α) :
      Grown cleared out ((Action.find find?).run.run cleared).2 := by
    rw [run_find]
    exact .inl rfl
  refine leaves_bind (hfind _) fun g fs' hfound _ ↦ ?_
  obtain ⟨hbuild, rfl⟩ := returns_find.1 hfound
  rw [← Path.ofText_text fun name hname ↦ (hstart.names name hname).1] at hbuild
  have htraced := Graph.traced_build hcleared.toWellNamed hbuild
  cases g.entry with
  | none => exact .inl rfl
  | some found =>
    refine leaves_bind (hfind _) fun plan fs' hplanned _ ↦ ?_
    obtain ⟨hplan, rfl⟩ := returns_find.1 hplanned
    have hlaid := Plan.laysOut_of_make htraced hout hplan
    refine leaves_bind (grown_writeFiles hcleared hgone hout hlaid) fun _ fs' _ hgrown ↦ ?_
    refine leaves_bind ?_ fun _ _ _ hgrown ↦ hgrown
    rw [run_find]
    exact hgrown

/-- A build whose entry lies below the output directory is **refused**, and nothing changes. -/
theorem run_buildInto_of_isBelow {entry : Path} (config : Config)
    (hentry : (Path.absolute fs.here entry).isBelow out = true) :
    (buildInto config entry out).run.run fs = (.error (.write out .holdsEntry), fs) := by
  have hget : (get : Action FileSystem).Returns fs fs fs := rfl
  have hrefused : (Action.find fun _ ↦ checkOutput out (Path.absolute fs.here entry)).run.run fs
      = (.error (.write out .holdsEntry), fs) := by
    rw [run_find, checkOutput, if_pos hentry]
  have hreset : (resetOutput out (Path.absolute fs.here entry)).run.run fs
      = (.error (.write out .holdsEntry), fs) := run_bind_of_error hrefused
  rw [buildInto, run_bind_of_returns hget, run_bind_of_error hreset]

/-- Any other build goes on **without** what stands at the output directory. -/
theorem run_buildInto (hfs : fs.Nested) (hout : out.isAbsolute = true)
    (hlink : fs.isLink out = true → fs.exists_ out = true) {entry : Path} (config : Config)
    (hentry : (Path.absolute fs.here entry).isBelow out = false) :
    (buildInto config entry out).run.run fs
      = (writeTree config (Path.absolute fs.here entry) out).run.run (fs.without out) := by
  have hget : (get : Action FileSystem).Returns fs fs fs := rfl
  rw [buildInto, run_bind_of_returns hget,
    run_bind_of_returns (returns_resetOutput hfs hout hlink hentry)]

/-- Whatever comes of such a build, it leaves **output** in a vacancy or nothing. -/
theorem grown_buildInto (hfs : fs.IsTree) (hout : out.IsProper) (hparts : out.parts ≠ [])
    (hlink : fs.isLink out = true → fs.exists_ out = true) {entry : Text} (config : Config)
    (hentry : (Path.absolute fs.here (Path.ofText entry)).isBelow out = false) :
    Grown (fs.without out) out ((buildInto config (Path.ofText entry) out).run.run fs).2 := by
  rw [run_buildInto hfs.nested hout.absolute hlink config hentry]
  exact grown_writeTree (hfs.without out) (exists_without fs hout hparts) hout
    (Path.isProper_absolute hfs.isProper_here entry) config

end ScriptTree
