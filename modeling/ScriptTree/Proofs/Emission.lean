import ScriptTree.Build.Basic
import ScriptTree.Proofs.Interleaving
import ScriptTree.Proofs.OutputTree

/-!
# Writing files side by side

The files of a graph are written by **tasks** that run side by side: each renders its text, makes
the directories above its target one by one, and writes. Two tasks may try to make the same
directory, and one may find that the other has been faster.

The steps tell apart what tasks do to the file system. A text is rendered in **one step**, so all
packages that a file takes names from are looked up at one moment. If these lie apart from the
output (`Vacancy.Apart`), a look-up gives the same at every moment, and nothing hangs on this.

Each task owns one place, where no other task writes a file, and relies on nothing that is there
being changed. It guarantees the same: it puts directories and files only where nothing was, and a
file only at its own place. Under this contract it writes what it has rendered, or it fails for a
reason that can still be seen afterwards (`ensures_emitFile`): a file is in its way, a directory is
at its place, or its text cannot be rendered or encoded.

## Main results

* `run_emitFile`: a task that runs alone does what writing a file does.
* `Vacancy.ensures_emitFile`: what a task ensures in company.
-/

namespace ScriptTree

open List ScriptTree.Action

/-! ### Actions that return -/

namespace Action

variable {α β : Type} {fs fs' : FileSystem}

/-- An action **returns** a result and leaves a file system behind. -/
def Returns (x : Action α) (fs : FileSystem) (a : α) (fs' : FileSystem) : Prop :=
  x.run.run fs = (.ok a, fs')

/-- What an action returns is **determined**. -/
theorem Returns.unique {x : Action α} {a b : α} {fs'' : FileSystem} (h : x.Returns fs a fs')
    (h' : x.Returns fs b fs'') : a = b ∧ fs' = fs'' := by
  rw [Returns] at h h'
  rw [h] at h'
  obtain ⟨ha, hfs⟩ := Prod.mk.inj h'
  exact ⟨Except.ok.inj ha, hfs⟩

theorem exists_returns [DecidableEq α] {x : Action α} {a : α}
    (h : succeedsWith (· = a) (x.run.run fs).1 = true) : ∃ fs', x.Returns fs a fs' :=
  ⟨(x.run.run fs).2, Prod.ext (eq_ok_of_succeedsWith h) rfl⟩

theorem returns_bind {x : Action α} {f : α → Action β} {b : β} {fs'' : FileSystem} :
    (x >>= f).Returns fs b fs'' ↔ ∃ a fs', x.Returns fs a fs' ∧ (f a).Returns fs' b fs'' := by
  obtain ⟨r, fs', hx⟩ : ∃ r fs', x.run.run fs = (r, fs') := ⟨_, _, rfl⟩
  have hrun : (x >>= f).run.run fs = (ExceptT.bindCont f r : StateM FileSystem _).run fs' := by
    show ((x.run.run fs).1 |> ExceptT.bindCont f).run (x.run.run fs).2 = _
    rw [hx]
  rw [Returns, hrun]
  cases r with
  | error e =>
    refine iff_of_false (fun h ↦ ?_) ?_
    · have hfail : ((Except.error e : Except Failure β), fs') = (Except.ok b, fs'') := h
      cases hfail
    · rintro ⟨a, fs₁, hreturns, -⟩
      rw [Returns, hx] at hreturns
      cases hreturns
  | ok a =>
    constructor
    · intro h
      exact ⟨a, fs', hx, h⟩
    · rintro ⟨a', fs₁, hreturns, h⟩
      rw [Returns, hx] at hreturns
      obtain ⟨ha, rfl⟩ := Prod.mk.inj hreturns
      cases ha
      exact h

theorem returns_pure {a b : α} : (pure a : Action α).Returns fs b fs' ↔ a = b ∧ fs = fs' := by
  show ((Except.ok a : Except Failure α), fs) = (Except.ok b, fs') ↔ _
  simp

theorem returns_tryCatch {x : Action α} {handle : Failure → Action α} {a : α} :
    (tryCatch x handle).Returns fs a fs' ↔
      x.Returns fs a fs' ∨
        ∃ e fs₁, x.run.run fs = (.error e, fs₁) ∧ (handle e).Returns fs₁ a fs' := by
  obtain ⟨r, fs₁, hx⟩ : ∃ r fs₁, x.run.run fs = (r, fs₁) := ⟨_, _, rfl⟩
  have hstep : StateT.run x fs = (r, fs₁) := hx
  rw [Returns, Returns, hx]
  show StateT.run (ExceptT.tryCatch x handle) fs = _ ↔ _
  rw [ExceptT.tryCatch, ExceptT.mk, StateT.run_bind, hstep]
  cases r with
  | ok b =>
    refine (or_iff_left ?_).symm
    rintro ⟨e, fs₂, hfail, -⟩
    cases hfail
  | error e =>
    constructor
    · intro h
      exact .inr ⟨e, fs₁, rfl, h⟩
    · rintro (h | ⟨e', fs₂, hfail, h⟩)
      · cases h
      · obtain ⟨he, rfl⟩ := Prod.mk.inj hfail
        cases he
        exact h

theorem returns_get {fs'' : FileSystem} :
    (get : Action FileSystem).Returns fs fs'' fs' ↔ fs = fs'' ∧ fs = fs' := by
  show ((Except.ok fs : Except Failure FileSystem), fs) = (Except.ok fs'', fs') ↔ _
  simp

theorem returns_find {f : FileSystem → Except Failure α} {a : α} :
    (find f).Returns fs a fs' ↔ f fs = .ok a ∧ fs = fs' := by
  rw [find, returns_bind]
  constructor
  · rintro ⟨fs₁, fs₂, hget, h⟩
    obtain ⟨rfl, rfl⟩ := returns_get.1 hget
    cases hf : f fs with
    | ok b =>
      rw [hf] at h
      obtain ⟨rfl, rfl⟩ := returns_pure.1 h
      exact ⟨rfl, rfl⟩
    | error e =>
      rw [hf] at h
      cases h
  · rintro ⟨hf, rfl⟩
    exact ⟨fs, fs, returns_get.2 ⟨rfl, rfl⟩, by rw [hf]; exact returns_pure.2 ⟨rfl, rfl⟩⟩

theorem returns_change {f : FileSystem → Except OsError FileSystem} {failed : OsError → Failure} :
    (change f failed).Returns fs () fs' ↔ f fs = .ok fs' := by
  rw [change, returns_bind]
  constructor
  · rintro ⟨fs₁, fs₂, hget, h⟩
    obtain ⟨rfl, rfl⟩ := returns_get.1 hget
    cases hf : f fs with
    | ok fs₃ =>
      rw [hf] at h
      have : ((Except.ok () : Except Failure Unit), fs₃) = (Except.ok (), fs') := h
      simp only [Prod.mk.injEq, true_and] at this
      rw [this]
    | error e =>
      rw [hf] at h
      cases h
  · intro hf
    exact ⟨fs, fs, returns_get.2 ⟨rfl, rfl⟩, by rw [hf]; rfl⟩

end Action

/-! ### Tasks -/

/-- One **attempt** at a change; if it fails, nothing has changed. -/
def attempt (f : FileSystem → Except OsError FileSystem) :
    Steps FileSystem (Except OsError Unit) :=
  Steps.atomically fun fs ↦
    match f fs with
    | .ok fs' => (.ok (), fs')
    | .error e => (.error e, fs)

/-- Looks whether there is a directory by now, and **excuses** a failure if there is. -/
def unlessDirectory (p : Path) (e : OsError) : Steps FileSystem (Except OsError Unit) :=
  Steps.atomically fun fs ↦ (if fs.isDirectory p then .ok () else .error e, fs)

/-- Makes a directory and those above it **step by step**: each attempt to make one, and each look
whether it is there, is a step. -/
def makeParentsSteps : Nat → Path → Steps FileSystem (Except OsError Unit)
  | 0, p => attempt (·.makeDirectory p)
  | n + 1, p => do
    match ← attempt (·.makeDirectory p) with
    | .ok () => return .ok ()
    | .error e =>
      if e.cause = .notFound ∧ p.parts ≠ [] then
        match ← makeParentsSteps n p.parent with
        | .error e => return .error e
        | .ok () =>
          match ← attempt (·.makeDirectory p) with
          | .ok () => return .ok ()
          | .error e => unlessDirectory p e
      else unlessDirectory p e

/-- A task that may fail. -/
abbrev Emission (α : Type) := ExceptT Failure (Steps FileSystem) α

namespace Emission

/-- What is found in the file system, in one step. -/
def find {α : Type} (f : FileSystem → Except Failure α) : Emission α :=
  ExceptT.mk (Steps.atomically fun fs ↦ (f fs, fs))

/-- What the system says when a task fails is turned into a failure. -/
def orFail (failed : OsError → Failure) (x : Steps FileSystem (Except OsError Unit)) :
    Emission Unit :=
  ExceptT.mk (do return (← x).mapError failed)

end Emission

/-- **Writes** a file with the directories above it, step by step. -/
def emitOutput (target : Path) (content : Text) : Emission Unit := do
  let failed (e : OsError) : Failure := .write target (.os e)
  Emission.orFail failed (makeParentsSteps target.parent.parts.length target.parent)
  match Utf8.encode? content with
  | .ok bytes => Emission.orFail failed (attempt (·.write target bytes))
  | .error _ =>
    Emission.orFail failed (attempt (·.write target []))
    throw (.defect (.unencodable content))

/-- The **task** that writes one file of a graph. -/
def emitFile (g : Graph) (plan : Plan) (file : SourceFile) : Emission Unit := do
  let text ← Emission.find fun fs ↦ fileOutput fs g plan file
  let target ← Emission.find fun _ ↦ plan.targetFor file.path
  emitOutput target text

/-! ### Tasks that run alone -/

section Alone

variable {fs fs' : FileSystem}

theorem run_attempt {f : FileSystem → Except OsError FileSystem} (h : f fs = .ok fs') :
    (attempt f).run fs = (.ok (), fs') := by
  rw [attempt, Steps.run_atomically, h]

/-- Making directories step by step, alone, **comes to the same**. -/
theorem run_makeParentsSteps {n : Nat} {p : Path}
    (h : FileSystem.makeParentsFrom n fs p = .ok fs') :
    (makeParentsSteps n p).run fs = (.ok (), fs') := by
  induction n generalizing fs fs' p with
  | zero => exact run_attempt h
  | succ n ih =>
    rw [FileSystem.makeParentsFrom] at h
    cases hmake : fs.makeDirectory p with
    | ok fs₁ =>
      simp only [hmake] at h
      simp [makeParentsSteps, attempt, hmake, h]
    | error e =>
      simp only [hmake] at h
      simp only [makeParentsSteps, attempt, hmake, Steps.run_bind, Steps.run_atomically]
      by_cases hmissing : e.cause = .notFound ∧ p.parts ≠ []
      · rw [if_pos hmissing] at h ⊢
        cases hparent : FileSystem.makeParentsFrom n fs p.parent with
        | error e' => simp [hparent] at h
        | ok fs₁ =>
          simp only [hparent] at h
          simp only [Steps.run_bind, ih hparent, Steps.run_atomically]
          cases hagain : fs₁.makeDirectory p with
          | ok fs₂ =>
            simp only [hagain, Except.ok.injEq] at h
            simp [h]
          | error e' =>
            simp only [hagain] at h
            split at h
            · next hdir => simpa [unlessDirectory, hdir] using h
            · cases h
      · rw [if_neg hmissing] at h ⊢
        split at h
        · next hdir => simpa [unlessDirectory, hdir] using h
        · cases h

theorem run_emission_bind {α β : Type} {x : Emission α} {f : α → Emission β} {a : α}
    {fs₁ : FileSystem} (hx : x.run.run fs = (.ok a, fs₁)) :
    (x >>= f).run.run fs = (f a).run.run fs₁ := by
  show (x.run >>= ExceptT.bindCont f : Steps FileSystem _).run fs = _
  rw [Steps.run_bind, hx]
  rfl

theorem run_orFail {failed : OsError → Failure} {x : Steps FileSystem (Except OsError Unit)}
    (hx : x.run fs = (.ok (), fs')) : (Emission.orFail failed x).run.run fs = (.ok (), fs') := by
  show (x >>= fun r ↦ pure (r.mapError failed)).run fs = _
  rw [Steps.run_bind, hx]
  rfl

/-- A task that runs alone does **what writing a file does**. -/
theorem run_emitFile {g : Graph} {plan : Plan} {file : SourceFile}
    (h : (writeFile g plan file).Returns fs () fs') :
    (emitFile g plan file).run.run fs = (.ok (), fs') := by
  rw [writeFile, returns_bind] at h
  obtain ⟨text, fs₁, hfind, h⟩ := h
  obtain ⟨htext, rfl⟩ := returns_find.1 hfind
  obtain ⟨target, fs₁, hfind, h⟩ := returns_bind.1 h
  obtain ⟨htarget, rfl⟩ := returns_find.1 hfind
  rw [writeOutput, returns_bind] at h
  obtain ⟨⟨⟩, fs₁, hparents, h⟩ := h
  rw [returns_change] at hparents
  have hrender : (Emission.find fun fs ↦ fileOutput fs g plan file).run.run fs
      = (.ok text, fs) := by
    simp [Emission.find, htext]
  have hplace : (Emission.find fun _ ↦ plan.targetFor file.path).run.run fs = (.ok target, fs) := by
    simp [Emission.find, htarget]
  rw [emitFile, run_emission_bind hrender, run_emission_bind hplace, emitOutput,
    run_emission_bind (run_orFail (run_makeParentsSteps hparents))]
  cases hbytes : Utf8.encode? text with
  | ok bytes =>
    rw [hbytes] at h
    exact run_orFail (run_attempt (returns_change.1 h))
  | error e =>
    rw [hbytes] at h
    obtain ⟨⟨⟩, fs₂, -, h⟩ := returns_bind.1 h
    cases h

end Alone

/-! ### Contracts of tasks -/

namespace Vacancy

variable {cleared fs fs' : FileSystem} {out : Path} (v : Vacancy cleared out)
  (places : List (List Text)) (own : List Text)

/-- What a task may expect of **others**: everything stays, and they write no file at its place. -/
def Relies (fs fs' : FileSystem) : Prop :=
  fs.Keeps fs' ∧ ∀ content executable,
    fs'.entry? (v.root ++ own) = some (.file content executable) →
      fs.entry? (v.root ++ own) = some (.file content executable)

/-- What a task may **do**: everything stays, and it writes no file but at its own place. -/
def Guarantees (fs fs' : FileSystem) : Prop :=
  fs.Keeps fs' ∧ ∀ q content executable, q ≠ own →
    fs'.entry? (v.root ++ q) = some (.file content executable) →
      fs.entry? (v.root ++ q) = some (.file content executable)

/-- The **contract** of the task that writes at a place. -/
def contract : Contract FileSystem := ⟨v.Holds places, v.Relies own, v.Guarantees own⟩

/-- No file has been written at a place. -/
def Unwritten (fs : FileSystem) : Prop :=
  ∀ content executable, fs.entry? (v.root ++ own) ≠ some (.file content executable)

variable {v places own}

theorem Relies.refl (fs : FileSystem) : v.Relies own fs fs := ⟨.refl fs, fun _ _ h ↦ h⟩

theorem Relies.trans {fs'' : FileSystem} (h : v.Relies own fs fs') (h' : v.Relies own fs' fs'') :
    v.Relies own fs fs'' :=
  ⟨h.1.trans h'.1, fun content executable he ↦ h.2 _ _ (h'.2 content executable he)⟩

theorem Guarantees.refl (fs : FileSystem) : v.Guarantees own fs fs :=
  ⟨.refl fs, fun _ _ _ _ h ↦ h⟩

/-- What a task does is what **others expect**. -/
theorem Guarantees.relies {other : List Text} (h : v.Guarantees own fs fs') (hne : other ≠ own) :
    v.Relies other fs fs' :=
  ⟨h.1, fun content executable ↦ h.2 other content executable hne⟩

theorem Unwritten.mono (h : v.Unwritten own fs) (hrelies : v.Relies own fs fs') :
    v.Unwritten own fs' :=
  fun content executable he ↦ h content executable (hrelies.2 content executable he)

/-- Something **new** that is a directory or stands at the own place. -/
theorem guarantees_put {q : List Text} {e : Entry} (hkeeps : fs.Keeps (fs.put (v.root ++ q) e))
    (he : e = .directory ∨ q = own) : v.Guarantees own fs (fs.put (v.root ++ q) e) := by
  refine ⟨hkeeps, fun q' content executable hne hfile ↦ ?_⟩
  rw [FileSystem.entry?_put (by simp [v.root_ne_nil])] at hfile
  split at hfile
  · next heq =>
    obtain rfl := append_cancel_left heq
    obtain rfl := he.resolve_right hne
    cases hfile
  · exact hfile

/-! ### Making directories in company -/

variable {q : List Text}

section Attempt

variable {c : Contract FileSystem} {f : FileSystem → Except OsError FileSystem}
  {post : Except OsError Unit → FileSystem → Prop}

theorem ensures_attempt_ok (hf : f fs = .ok fs') (hholds : c.holds fs')
    (hguarantees : c.guarantees fs fs')
    (hpost : ∀ s, c.relies fs' s → c.holds s → post (.ok ()) s) :
    c.Ensures post (attempt f) fs := by
  refine Contract.ensures_atomically ?_ ?_ ?_
  all_goals
    simp only [hf]
    assumption

theorem ensures_attempt_error {e : OsError} (hf : f fs = .error e) (hholds : c.holds fs)
    (hguarantees : c.guarantees fs fs)
    (hpost : ∀ s, c.relies fs s → c.holds s → post (.error e) s) :
    c.Ensures post (attempt f) fs := by
  refine Contract.ensures_atomically ?_ ?_ ?_
  all_goals
    simp only [hf]
    assumption

end Attempt

variable (v places own q)

/-- What is known after an **attempt** to make a directory: it is there; or it was missing, as was
the directory above it; or something is there, or a file is in the way. -/
def Attempted (before : FileSystem) (r : Except OsError Unit) (fs : FileSystem) : Prop :=
  v.Holds places fs ∧ v.Unwritten own fs ∧
    match r with
    | .ok () => fs.entry? (v.root ++ q) = some .directory
    | .error e =>
      e.cause = .notFound ∧ before.entry? (v.root ++ q).dropLast ≠ some .directory ∨
        e.cause ≠ .notFound ∧
          ((∃ found, fs.entry? (v.root ++ q) = some found) ∨ v.Obstructs fs q)

/-- What is known when a directory was to be **made** with all above it: it is there, or a file is
in the way. -/
def Made {ε : Type} (r : Except ε Unit) (fs : FileSystem) : Prop :=
  v.Holds places fs ∧ v.Unwritten own fs ∧
    match r with
    | .ok () => fs.entry? (v.root ++ q) = some .directory
    | .error _ => v.Obstructs fs q

variable {v places own q}

theorem ensures_attempt (h : v.Holds places fs) (hfree : v.Unwritten own fs)
    (hq : Path.up ∉ v.first :: q) (hway : ∃ names, names ≠ [] ∧ q ++ names ∈ places) :
    (v.contract places own).Ensures (v.Attempted places own q fs)
      (attempt (·.makeDirectory (v.path q))) fs := by
  rcases h.makeDirectory_cases hq with ⟨hmake, hnone, hparent⟩ | ⟨e, hmake, hcause⟩
  · obtain ⟨hholds, hkeeps⟩ := h.put hparent hnone (.inl ⟨rfl, hway⟩)
    have hentry (l : Location) : FileSystem.entry? (fs.put (v.root ++ q) .directory) l = _ :=
      FileSystem.entry?_put (by simp [v.root_ne_nil]) .directory l
    have hfree' : v.Unwritten own (fs.put (v.root ++ q) .directory) := by
      intro content executable hfile
      rw [hentry] at hfile
      split at hfile
      · cases hfile
      · exact hfree content executable hfile
    refine ensures_attempt_ok hmake hholds (guarantees_put hkeeps (.inl rfl)) ?_
    intro fs' hrelies hholds'
    exact ⟨hholds', hfree'.mono hrelies, hrelies.1 _ _ (by rw [hentry, if_pos rfl])⟩
  · refine ensures_attempt_error hmake h (Guarantees.refl fs) ?_
    intro fs' hrelies hholds'
    refine ⟨hholds', hfree.mono hrelies, hcause.imp id fun hfound ↦ ⟨hfound.1, ?_⟩⟩
    exact hfound.2.imp (fun ⟨found, hfound⟩ ↦ ⟨found, hrelies.1 _ _ hfound⟩) (·.mono hrelies.1)

/-- A failure is excused if there is a **directory** by now; otherwise a file is in the way. -/
theorem ensures_unlessDirectory (h : v.Holds places fs) (hfree : v.Unwritten own fs)
    (hq : Path.up ∉ v.first :: q)
    (hcause : (∃ found, fs.entry? (v.root ++ q) = some found) ∨ v.Obstructs fs q) (e : OsError) :
    (v.contract places own).Ensures (v.Made places own q) (unlessDirectory (v.path q) e) fs := by
  refine Contract.ensures_atomically h (Guarantees.refl fs) ?_
  intro fs' hrelies hholds'
  refine ⟨hholds', hfree.mono hrelies, ?_⟩
  by_cases hdir : fs.isDirectory (v.path q) = true
  · simp only [hdir]
    exact hrelies.1 _ _ ((h.isDirectory_path_iff hq).1 hdir)
  · simp only [hdir, Bool.false_eq_true]
    rcases hcause with ⟨found, hfound⟩ | hfile
    · rcases h.below q found hfound with ⟨rfl, -⟩ | ⟨-, content, rfl⟩
      · exact absurd ((h.isDirectory_path_iff hq).2 hfound) hdir
      · exact ⟨q, [], content, false, (append_nil q).symm, hrelies.1 _ _ hfound⟩
    · exact hfile.mono hrelies.1

/-- Directories are **made**, with all above them, unless a file is in the way. -/
theorem ensures_makeParents (n : Nat) (hn : q.length < n) (h : v.Holds places fs)
    (hfree : v.Unwritten own fs) (hq : Path.up ∉ v.first :: q)
    (hway : ∃ names, names ≠ [] ∧ q ++ names ∈ places) :
    (v.contract places own).Ensures (v.Made places own q) (makeParentsSteps n (v.path q)) fs := by
  induction n generalizing q fs with
  | zero => exact absurd hn (Nat.not_lt_zero _)
  | succ n ih =>
    have hparts : (v.path q).parts ≠ [] := by simp [path]
    refine (ensures_attempt h hfree hq hway).bind fun r fs₁ hr ↦ ?_
    obtain ⟨h₁, hfree₁, hr⟩ := hr
    cases r with
    | ok => exact Contract.ensures_pure ⟨h₁, hfree₁, hr⟩
    | error e =>
      by_cases hmissing : e.cause = .notFound
      · -- The directory above is missing too, so there is one below the root.
        have hparent := (hr.resolve_right fun hfound ↦ hfound.1 hmissing).2
        rcases eq_nil_or_concat q with rfl | ⟨q, name, rfl⟩
        · rw [Holds.dropLast_root] at hparent
          exact absurd h.entry?_base hparent
        rw [concat_eq_append] at hn hq hway hparts ⊢
        have hq' : Path.up ∉ v.first :: q := fun hup ↦ hq (mem_append_left [name] hup)
        have hway' : ∃ names, names ≠ [] ∧ q ++ names ∈ places := by
          obtain ⟨names, -, hmem⟩ := hway
          exact ⟨name :: names, by simp, by rwa [append_cons]⟩
        simp only [hmissing, hparts, ne_eq, not_false_eq_true, and_self]
        rw [v.parent_path_concat]
        have hlength : q.length < n := by simpa using hn
        refine (ih hlength h₁ hfree₁ hq' hway').bind fun r fs₂ hr ↦ ?_
        obtain ⟨h₂, hfree₂, hr⟩ := hr
        cases r with
        | error e => exact Contract.ensures_pure ⟨h₂, hfree₂, hr.append [name]⟩
        | ok =>
          refine (ensures_attempt h₂ hfree₂ hq hway).bind fun r fs₃ hr' ↦ ?_
          obtain ⟨h₃, hfree₃, hr'⟩ := hr'
          cases r with
          | ok => exact Contract.ensures_pure ⟨h₃, hfree₃, hr'⟩
          | error e =>
            rw [Holds.dropLast_root_append] at hr'
            have hfound := hr'.resolve_left fun hfail ↦ hfail.2 hr
            exact ensures_unlessDirectory h₃ hfree₃ hq hfound.2 e
      · have hfound := hr.resolve_left fun hfail ↦ hmissing hfail.1
        simp only [hmissing, false_and]
        exact ensures_unlessDirectory h₁ hfree₁ hq hfound.2 e

/-! ### Writing in company -/

variable (v own)

/-- What a task has **done** in the end: at its place stands what it has rendered at some moment; or
a file is in its way, or a directory is at its place, or at some moment its text could not be
rendered or encoded. -/
def Emitted (render : FileSystem → Except Failure Text) (r : Except Failure Unit)
    (fs : FileSystem) : Prop :=
  match r with
  | .ok () => ∃ seen text bytes, seen.eraseTree v.root = cleared ∧ render seen = .ok text ∧
      Utf8.encode? text = .ok bytes ∧ fs.entry? (v.root ++ own) = some (.file bytes false)
  | .error _ =>
    v.Obstructs fs own.dropLast ∨ fs.entry? (v.root ++ own) = some .directory ∨
      ∃ seen, seen.eraseTree v.root = cleared ∧
        ∀ text bytes, render seen = .ok text → Utf8.encode? text ≠ .ok bytes

variable {v own}

section Emission

variable {α β : Type} {c : Contract FileSystem}

theorem ensures_emission_bind {x : Emission α} {f : α → Emission β}
    {post : Except Failure α → FileSystem → Prop} {post' : Except Failure β → FileSystem → Prop}
    (hx : c.Ensures post x.run fs) (herror : ∀ e fs, post (.error e) fs → post' (.error e) fs)
    (hok : ∀ a fs, post (.ok a) fs → c.Ensures post' (f a).run fs) :
    c.Ensures post' (x >>= f).run fs := by
  show c.Ensures post' (x.run >>= ExceptT.bindCont f) fs
  refine hx.bind fun r fs' hr ↦ ?_
  cases r with
  | ok a => exact hok a fs' hr
  | error e => exact Contract.ensures_pure (herror e fs' hr)

theorem ensures_orFail {x : Steps FileSystem (Except OsError Unit)} {failed : OsError → Failure}
    {post : Except OsError Unit → FileSystem → Prop}
    {post' : Except Failure Unit → FileSystem → Prop}
    (hx : c.Ensures post x fs) (herror : ∀ e fs, post (.error e) fs → post' (.error (failed e)) fs)
    (hok : ∀ fs, post (.ok ()) fs → post' (.ok ()) fs) :
    c.Ensures post' (Emission.orFail failed x).run fs := by
  refine hx.bind fun r fs' hr ↦ ?_
  cases r with
  | ok => exact Contract.ensures_pure (hok fs' hr)
  | error e => exact Contract.ensures_pure (herror e fs' hr)

end Emission

/-- What is found in the file system is what stood there **when the step was taken**. -/
theorem ensures_find {α : Type} {f : FileSystem → Except Failure α} (h : v.Holds places fs)
    (hfree : v.Unwritten own fs) :
    (v.contract places own).Ensures
      (fun r fs' ↦ v.Holds places fs' ∧ v.Unwritten own fs' ∧ r = f fs)
      (Emission.find f).run fs := by
  refine Contract.ensures_atomically h (Guarantees.refl fs) ?_
  intro fs' hrelies hholds'
  exact ⟨hholds', hfree.mono hrelies, rfl⟩

/-- **Writing** at the own place, once the directory is there. -/
theorem ensures_write (h : v.Holds places fs) (hfree : v.Unwritten own fs)
    (hq : Path.up ∉ v.first :: own) (hown : own ∈ places)
    (hparent : fs.entry? (v.root ++ own).dropLast = some .directory) (bytes : Bytes) :
    (v.contract places own).Ensures
      (fun r fs' ↦ match r with
        | .ok () => fs'.entry? (v.root ++ own) = some (.file bytes false)
        | .error _ => fs'.entry? (v.root ++ own) = some .directory)
      (attempt (·.write (v.path own) bytes)) fs := by
  rcases h.write_cases hq hparent hfree bytes with ⟨hwrite, hnone⟩ | ⟨e, hwrite, hdir⟩
  · obtain ⟨hholds, hkeeps⟩ := h.put hparent hnone (.inr ⟨hown, bytes, rfl⟩)
    refine ensures_attempt_ok hwrite hholds (guarantees_put hkeeps (.inr rfl)) ?_
    intro fs' hrelies _
    refine hrelies.1 _ _ ?_
    rw [FileSystem.entry?_put (by simp [v.root_ne_nil]), if_pos rfl]
  · refine ensures_attempt_error hwrite h (Guarantees.refl fs) ?_
    intro fs' hrelies _
    exact hrelies.1 _ _ hdir

theorem ensures_emitOutput {render : FileSystem → Except Failure Text} {seen : FileSystem}
    {text : Text} (h : v.Holds places fs) (hfree : v.Unwritten own fs)
    (hq : Path.up ∉ v.first :: own) (hown : own ∈ places) (hne : own ≠ [])
    (hseen : seen.eraseTree v.root = cleared) (hrender : render seen = .ok text) :
    (v.contract places own).Ensures (v.Emitted own render)
      (emitOutput (v.path own) text).run fs := by
  obtain ⟨q, name, rfl⟩ : ∃ q name, own = q ++ [name] :=
    ⟨_, _, (dropLast_concat_getLast hne).symm⟩
  have hq' : Path.up ∉ v.first :: q := fun hup ↦ hq (mem_append_left [name] hup)
  have hlength : q.length < (v.path q).parts.length := by
    simp [path]
    omega
  have hmade (failed : OsError → Failure) : (v.contract places (q ++ [name])).Ensures
      (v.Made places (q ++ [name]) q)
      (Emission.orFail failed (makeParentsSteps (v.path q).parts.length (v.path q))).run fs :=
    ensures_orFail (ensures_makeParents _ hlength h hfree hq' ⟨[name], by simp, hown⟩)
      (fun e fs' hr ↦ hr) fun fs' hr ↦ hr
  rw [emitOutput, v.parent_path_concat]
  refine ensures_emission_bind (hmade _) ?_ ?_
  · rintro e fs' ⟨-, -, hfile⟩
    exact .inl (by rwa [dropLast_concat])
  · rintro ⟨⟩ fs' ⟨h', hfree', hdir⟩
    have hparent : fs'.entry? (v.root ++ (q ++ [name])).dropLast = some .directory := by
      rwa [Holds.dropLast_root_append]
    cases hbytes : Utf8.encode? text with
    | ok bytes =>
      exact ensures_orFail (ensures_write h' hfree' hq hown hparent bytes)
        (fun e fs'' hdir ↦ .inr (.inl hdir))
        fun fs'' hfile ↦ ⟨seen, text, bytes, hseen, hrender, hbytes, hfile⟩
    | error e =>
      have hfail (fs'' : FileSystem) (e' : Failure) :
          v.Emitted (q ++ [name]) render (.error e') fs'' := by
        refine .inr (.inr ⟨seen, hseen, fun text' bytes hrender' hbytes' ↦ ?_⟩)
        rw [hrender] at hrender'
        cases hrender'
        rw [hbytes] at hbytes'
        cases hbytes'
      have hwrite (failed : OsError → Failure) : (v.contract places (q ++ [name])).Ensures
          (fun _ _ ↦ True)
          (Emission.orFail failed (attempt (·.write (v.path (q ++ [name])) []))).run fs' :=
        ensures_orFail (ensures_write h' hfree' hq hown hparent []) (fun _ _ _ ↦ trivial)
          fun _ _ ↦ trivial
      refine ensures_emission_bind (hwrite _) (fun e' fs'' _ ↦ hfail fs'' e') fun _ fs'' _ ↦ ?_
      exact Contract.ensures_pure (hfail fs'' _)

/-- **A task in company.** Whatever the other tasks do in between, the task of a file writes at its
place what it has rendered, or fails for a reason that can be seen in the end. -/
theorem ensures_emitFile {g : Graph} {plan : Plan} {file : SourceFile} (h : v.Holds places fs)
    (hfree : v.Unwritten own fs) (hq : Path.up ∉ v.first :: own) (hown : own ∈ places)
    (hne : own ≠ []) (htarget : plan.targetFor file.path = .ok (v.path own)) :
    (v.contract places own).Ensures (v.Emitted own fun fs ↦ fileOutput fs g plan file)
      (emitFile g plan file).run fs := by
  refine ensures_emission_bind (ensures_find h hfree) ?_ ?_
  · rintro e fs' ⟨-, -, hfail⟩
    exact .inr (.inr ⟨fs, h.erased, fun text bytes hrender ↦ by simp [hrender] at hfail⟩)
  · rintro text fs₁ ⟨h₁, hfree₁, hrender⟩
    refine ensures_emission_bind (ensures_find h₁ hfree₁) ?_ ?_
    · rintro e fs₂ ⟨-, -, hfail⟩
      rw [htarget] at hfail
      cases hfail
    · rintro target fs₂ ⟨h₂, hfree₂, hplace⟩
      rw [htarget] at hplace
      cases hplace
      exact ensures_emitOutput h₂ hfree₂ hq hown hne h.erased hrender.symm

end Vacancy

end ScriptTree
