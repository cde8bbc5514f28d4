import ScriptTree.Proofs.Remains
import ScriptTree.Proofs.WrittenPlan

/-!
# Discarded output

A run removes its output directory **however it ends**: whether the program returned, could not be
started, or was never reached because the build failed somewhere. What is left then?

Nothing is left at the output directory or below it. Outside it, everything is as it was, apart from
directories above the output directory that were missing and had to be made: these stay. It is
tempting to say that nothing else can have changed outside, but the path of the output directory may
lead *through the very link that stands there*. Clearing removes this link, and then the directories
on the way have to be made anew, one of them where the link was (`run_replaces_link`). So what is
made is what is missing **once the output directory is removed**, and it is what was missing before
if the way to the parent does not pass what is removed.

## Main results

* `discarded_of_grown`: what discarding makes of output that has grown.
* `run_discards`: what a run leaves.
-/

namespace ScriptTree

open List ScriptTree.Action
open FileSystem

/-! ### Removing what was written -/

namespace FileSystem

variable {fs : FileSystem} {l r : Location}

theorem Nested.eraseTree (h : fs.Nested) (hr : r ≠ []) : (fs.eraseTree r).Nested := by
  intro d name e he
  rw [entry?_eraseTree hr] at he ⊢
  obtain ⟨hbelow, he⟩ := Option.ite_none_left_eq_some.1 he
  rw [if_neg fun hd ↦ hbelow (hd.trans (prefix_append d [name]))]
  exact h d name e he

/-- Erasing a tree erases what has been left of it. -/
theorem eraseTree_eraseTree (h : l <+: r) (fs : FileSystem) :
    (fs.eraseTree r).eraseTree l = fs.eraseTree l := by
  show (⟨(fs.entries.filter _).filter _, fs.cwd⟩ : FileSystem) = ⟨fs.entries.filter _, fs.cwd⟩
  rw [filter_filter]
  congr 1
  refine filter_congr fun item _ ↦ ?_
  rw [Bool.eq_iff_iff, Bool.and_eq_true]
  simp only [Bool.not_eq_true', ← Bool.not_eq_true, List.isPrefixOf_iff_prefix]
  exact and_iff_left_of_imp fun hl hr ↦ hl (h.trans hr)

/-- A location lies **above** an output directory: it is that of a directory to which a shorter part
of the path leads. -/
def LiesAbove (fs : FileSystem) (out : Path) (l : Location) : Prop :=
  ∃ above after, after ≠ [] ∧ out.parts = above ++ after ∧
    fs.stat ⟨out.anchor, above⟩ = .ok (l, .directory)

end FileSystem

variable {fs cleared : FileSystem} {out : Path}

/-- A file system from which all output has been **removed**: nothing is found at the output
directory or below it, and what has changed otherwise are directories above it that were made. -/
structure Discarded (cleared : FileSystem) (out : Path) (fs : FileSystem) : Prop where
  cwd : fs.cwd = cleared.cwd
  gone : ∀ names, fs.exists_ (out.append names) = false ∧ fs.isLink (out.append names) = false
  outside : ∀ l, fs.entry? l = cleared.entry? l ∨ cleared.entry? l = none ∧ fs.LiesAbove out l

namespace Discarded

theorem keeps (h : Discarded cleared out fs) : cleared.Keeps fs := by
  intro l e he
  rcases h.outside l with heq | ⟨hnone, -⟩
  · rw [heq, he]
  · rw [hnone] at he
    cases he

/-- If the **parent** of the output directory is there, no directory had to be made. -/
theorem entry?_eq (h : Discarded cleared out fs) (hout : out.isAbsolute = true)
    (hparent : cleared.isDirectory out.parent = true) (l : Location) :
    fs.entry? l = cleared.entry? l := by
  rcases h.outside l with heq | ⟨hnone, above, after, hafter, hparts, hstat⟩
  · exact heq
  · -- What leads to a directory now has led to one before, at the same location.
    have habsolute : (⟨out.anchor, above⟩ : Path).isAbsolute = true := hout
    have habove : cleared.isDirectory ⟨out.anchor, above⟩ = true := by
      have hpath : out.parent = (⟨out.anchor, above⟩ : Path).append after.dropLast := by
        simp [Path.parent, Path.append, hparts, dropLast_append_of_ne_nil hafter]
      by_contra hnot
      rw [hpath, isDirectory_append_eq_false habsolute (eq_false_of_ne_true hnot)] at hparent
      exact Bool.false_ne_true hparent
    obtain ⟨l', hstat'⟩ := isDirectory_iff.1 habove
    have hsame := stat_of_keeps h.keeps habsolute hstat'
    rw [hstat] at hsame
    obtain ⟨rfl, -⟩ := Prod.mk.inj (Except.ok.inj hsame)
    rw [(stat_eq_ok_iff.1 hstat').2] at hnone
    cases hnone

end Discarded

/-- Where no path leads, **nothing** is found below it either. -/
theorem gone_append (hout : out.isAbsolute = true) (hgone : fs.exists_ out = false)
    (hlink : fs.isLink out = false) (names : List Text) :
    fs.exists_ (out.append names) = false ∧ fs.isLink (out.append names) = false := by
  by_cases hnames : names = []
  · have hself : out.append names = out := by rw [Path.append, hnames, append_nil]
    rw [hself]
    exact ⟨hgone, hlink⟩
  · have hnot {follow : Bool} {l : Location} : fs.locate follow (out.append names) ≠ .ok l := by
      intro hlocate
      obtain ⟨d, hstat⟩ := isDirectory_iff.1 (isDirectory_of_append hout hnames hlocate)
      exact Bool.false_ne_true (hgone.symm.trans (exists_iff.2 ⟨d, _, hstat⟩))
    refine ⟨eq_false_of_ne_true fun hexists ↦ ?_, eq_false_of_ne_true fun hislink ↦ ?_⟩
    · obtain ⟨l, e, hstat⟩ := exists_iff.1 hexists
      exact hnot (stat_eq_ok_iff.1 hstat).1
    · obtain ⟨l, target, hlocate, -⟩ := isLink_iff.1 hislink
      exact hnot hlocate

theorem returns_modify (f : FileSystem → FileSystem) (fs : FileSystem) :
    (modify f : Action Unit).Returns fs () (f fs) :=
  rfl

/-- Discarding removes **what stands** at the output directory, if that is a directory. -/
theorem returns_discardOutput (hfs : fs.Nested)
    (hdir : ∀ l e, fs.locate false out = .ok l → fs.entry? l = some e → e = .directory) :
    (discardOutput out).Returns fs () (fs.without out) := by
  have hremoved : fs.removeTree out = .ok (fs.without out) ∨
      fs.without out = fs ∧ ∃ e, fs.removeTree out = .error e := by
    cases hlocate : fs.locate false out with
    | error cause => exact .inr ⟨without_of_error hlocate, _, by rw [removeTree, hlocate]; rfl⟩
    | ok l =>
      cases he : fs.entry? l with
      | none =>
        refine .inr ⟨?_, ⟨.notFound, out.text⟩, ?_⟩
        · rw [without_of_locate hlocate, hfs.eraseTree_eq_self he]
        · simp [removeTree, hlocate, he, failAt, bind, Except.bind]
      | some e => exact .inl (removeTree_eq_without hlocate (hdir l e hlocate he ▸ he))
  rcases hremoved with hok | ⟨hself, e, herror⟩
  · refine (returns_modify _ fs).trans ?_
    simp only [hok]
  · refine (returns_modify _ fs).trans ?_
    simp only [herror, hself]

namespace Vacancy

variable {v : Vacancy cleared out} {places : List (List Text)}

theorem path_rest (v : Vacancy cleared out) : v.path v.rest = out := by
  have hself := v.append_eq_path []
  rw [append_nil] at hself
  rw [← hself, Path.append, append_nil]

theorem Holds.exists_locate_error (h : v.Holds places fs)
    (hnone : fs.entry? (v.root ++ v.rest) = none) :
    ∃ cause, fs.locate false out = .error cause := by
  rw [← v.path_rest]
  rcases h.locate_of_none v.proper hnone false with hfail | ⟨hfail, -⟩
  · exact ⟨_, hfail⟩
  · exact ⟨_, hfail⟩

/-- What stands **at the output directory** is a directory. -/
theorem Holds.directory_of_locate (h : v.Holds places fs)
    (hplaces : ∀ q ∈ places, ∃ names, names ≠ [] ∧ q = v.rest ++ names) {l : Location} {e : Entry}
    (hlocate : fs.locate false out = .ok l) (he : fs.entry? l = some e) :
    l = v.root ++ v.rest ∧ e = .directory := by
  cases hrest : fs.entry? (v.root ++ v.rest) with
  | none =>
    obtain ⟨cause, hfail⟩ := h.exists_locate_error hrest
    rw [hfail] at hlocate
    cases hlocate
  | some found =>
    rw [← v.path_rest, h.locate_of_entry v.proper hrest] at hlocate
    cases hlocate
    rcases h.below _ e he with ⟨hdir, -⟩ | ⟨hmem, -⟩
    · exact ⟨rfl, hdir⟩
    · obtain ⟨names, hnames, heq⟩ := hplaces _ hmem
      exact absurd (self_eq_append_right.1 heq) hnames

/-- Without the output directory, the output that is left consists of directories **above** it. -/
theorem Holds.without (h : v.Holds places fs)
    (hplaces : ∀ q ∈ places, ∃ names, names ≠ [] ∧ q = v.rest ++ names) :
    v.Holds [v.rest] (fs.without out) := by
  have hsplit (q : List Text) (e : Entry) (he : fs.entry? (v.root ++ q) = some e)
      (hq : ¬ v.rest <+: q) : e = .directory ∧ ∃ names, names ≠ [] ∧ q ++ names ∈ [v.rest] := by
    rcases h.below q e he with ⟨hdir, names, -, hmem⟩ | ⟨hmem, -⟩
    · obtain ⟨names', -, heq⟩ := hplaces _ hmem
      -- Both lead to the same place, so one of them is part of the other.
      obtain ⟨after, hafter⟩ : q <+: v.rest :=
        (List.prefix_or_prefix_of_prefix (heq ▸ prefix_append q names)
          (prefix_append v.rest names')).resolve_right hq
      refine ⟨hdir, after, ?_, mem_singleton.2 hafter⟩
      rintro rfl
      exact hq (by simp [← hafter])
    · obtain ⟨names, -, rfl⟩ := hplaces _ hmem
      exact absurd (prefix_append _ _) hq
  have hgone : fs.entry? (v.root ++ v.rest) = none →
      ∀ q e, fs.entry? (v.root ++ q) = some e → ¬ v.rest <+: q := by
    rintro hnone q e he ⟨names, rfl⟩
    rw [← append_assoc, h.nested.entry?_eq_none hnone] at he
    cases he
  cases hrest : fs.entry? (v.root ++ v.rest) with
  | none =>
    obtain ⟨cause, hfail⟩ := h.exists_locate_error hrest
    rw [without_of_error hfail]
    exact ⟨h.erased, h.nested, h.nodup, fun q e he ↦ .inl (hsplit q e he (hgone hrest q e he))⟩
  | some e =>
    have hne : v.root ++ v.rest ≠ [] := by simp [v.root_ne_nil]
    have herased : fs.without out = fs.eraseTree (v.root ++ v.rest) := by
      have hlocate := h.locate_of_entry v.proper hrest false
      rw [v.path_rest] at hlocate
      exact without_of_locate hlocate
    rw [herased]
    refine ⟨?_, h.nested.eraseTree hne, h.nodup.sublist (filter_sublist.map _),
      fun q e he ↦ .inl ?_⟩
    · rw [eraseTree_eraseTree (prefix_append _ _), h.erased]
    · rw [entry?_eraseTree hne] at he
      obtain ⟨hbelow, he⟩ := Option.ite_none_left_eq_some.1 he
      exact hsplit q e he fun hq ↦ hbelow ((prefix_append_right_inj _).2 hq)

/-- All that is left **differs** from what was there before only in directories above the output
directory. -/
theorem Holds.outside (hcleared : cleared.Nested) (hgone : fs.exists_ out = false)
    (h : v.Holds [v.rest] fs) (l : Location) :
    fs.entry? l = cleared.entry? l ∨ cleared.entry? l = none ∧ fs.LiesAbove out l := by
  by_cases hroot : v.root <+: l
  · obtain ⟨q, rfl⟩ := hroot
    have hnone : cleared.entry? (v.root ++ q) = none := hcleared.entry?_eq_none v.free q
    cases he : fs.entry? (v.root ++ q) with
    | none => exact .inl hnone.symm
    | some e =>
      rcases h.below q e he with ⟨rfl, after, hafter, hmem⟩ | ⟨hmem, content, rfl⟩
      · have hrest := mem_singleton.1 hmem
        have hq : Path.up ∉ v.first :: q := fun hup ↦ v.proper (by
          rw [← hrest]
          exact mem_append_left after hup)
        refine .inr ⟨hnone, v.above ++ v.first :: q, after, hafter, ?_, h.stat_of_entry hq he⟩
        rw [v.parts, ← hrest, append_assoc, cons_append]
      · obtain rfl := mem_singleton.1 hmem
        have hstat := h.stat_of_entry v.proper he
        rw [v.path_rest] at hstat
        exact absurd (exists_iff.2 ⟨_, _, hstat⟩) (Bool.eq_false_iff.1 hgone)
  · rw [← h.erased, entry?_eraseTree v.root_ne_nil, if_neg hroot]
    exact .inl rfl

end Vacancy

/-- **What discarding makes of output that has grown**: it is removed, and the directories above it
stay. -/
theorem discarded_of_grown (hcleared : cleared.IsTree) (hout : out.IsProper)
    (hparts : out.parts ≠ []) (hgone : cleared.exists_ out = false)
    (hlink : cleared.isLink out = false) (h : Grown cleared out fs) :
    (discardOutput out).Returns fs () (fs.without out) ∧
      Discarded cleared out (fs.without out) := by
  have hgone' := exists_without fs hout hparts
  have hbelow := gone_append hout.absolute hgone' (isLink_without fs hout.absolute)
  rcases h with rfl | ⟨v, places, hplaces, hholds⟩
  · refine ⟨returns_discardOutput hcleared.nested fun l e hlocate he ↦ ?_, cwd_without fs out,
      hbelow, fun l ↦ .inl (by rw [hcleared.nested.without_eq_self hgone hlink])⟩
    rw [entry?_eq_none_of_gone hgone hlink hlocate] at he
    cases he
  · have hleft := hholds.without hplaces
    refine ⟨returns_discardOutput hholds.nested fun l e hlocate he ↦
      (hholds.directory_of_locate hplaces hlocate he).2, ?_, hbelow,
      hleft.outside hcleared.nested hgone'⟩
    rw [← hleft.erased]
    rfl

/-! ### Runs -/

namespace Action

variable {α : Type} {fs left : FileSystem}

/-- A last step that succeeds is made **however** an action ends. -/
theorem run_tryFinally {x : Action α} {last : Action Unit}
    (hlast : last.Returns (x.run.run fs).2 () left) :
    (tryFinally x last).run.run fs = ((x.run.run fs).1, left) := by
  obtain ⟨r, fs', hx⟩ : ∃ r fs', x.run.run fs = (r, fs') := ⟨_, _, rfl⟩
  rw [hx] at hlast ⊢
  have hfirst : x fs = (r, fs') := hx
  have hafter : last fs' = (.ok (), left) := hlast
  simp only [tryFinally, Functor.map, tryFinally', ExceptT.map, ExceptT.mk, ExceptT.run, StateT.run,
    bind, StateT.bind, hfirst]
  cases r with
  | ok a =>
    simp only [hafter]
    rfl
  | error e =>
    simp only [hafter]
    rfl

end Action

section Run

variable {launch : Launcher} {given : Option Config} {environment : Environment} {config : Config}
  {output : Option Text} {program : Text}

/-- Building and starting leaves what the **build** leaves, if the program leaves what it finds. -/
theorem grown_buildAndStart (hfs : fs.IsTree)
    (hlaunch : ∀ seen name args finished, launch seen name args = .ok finished →
      finished.fileSystem = seen)
    (hout : out.IsProper) (hparts : out.parts ≠ [])
    (hlink : fs.isLink out = true → fs.exists_ out = true) {entry : Text}
    (hentry : (Path.absolute fs.here (Path.ofText entry)).isBelow out = false) (args : List Text) :
    Grown (fs.without out) out
      ((buildAndStart launch config program (Path.ofText entry) out args).run.run fs).2 := by
  refine leaves_bind (grown_buildInto hfs hout hparts hlink config hentry)
    fun written fs' _ hgrown ↦ ?_
  cases written with
  | none => exact hgrown
  | some written =>
    have hget : (get : Action FileSystem).Returns fs' fs' fs' := rfl
    rw [run_bind_of_returns hget]
    cases hstart : launch fs' program (written.text :: args) with
    | error e => exact hgrown
    | ok finished =>
      show Grown (fs.without out) out finished.fileSystem
      rwa [hlaunch _ _ _ _ hstart]

/-- A run that finds its settings **checks** the output directory before anything else. -/
theorem run_eq_checked (hconfig : (configOr given environment).Returns fs config fs)
    (hnamed : (directoryOr config .runDirectory output).Returns fs out fs)
    (hprogram : config.get .program = .ok program) (entry : Path) (args : List Text) :
    (run launch given environment entry args output).run.run fs = (do
      Action.find fun fs => checkOutput out (Path.absolute fs.here entry)
      tryFinally (buildAndStart launch config program entry out args) (discardOutput out) :
        Action (Int × Bytes)).run.run fs := by
  have hfound : (Action.find fun _ ↦ config.get .program).Returns fs program fs :=
    returns_find.2 ⟨hprogram, rfl⟩
  rw [run, run_bind_of_returns hconfig, run_bind_of_returns hnamed,
    run_bind_of_returns hfound]

/-- The directories that were made had been **missing**, unless the way to the parent leads through
what stood at the output directory. -/
theorem Discarded.missing_of_liesAbove (h : Discarded (fs.without out) out left) (hfs : fs.IsTree)
    (hout : out.IsProper) (hparts : out.parts ≠ [])
    (hlink : fs.isLink out = true → fs.exists_ out = true) (hway : ¬ fs.OnWay out out.parent)
    (l : Location) :
    left.entry? l = FileSystem.entry? (fs.without out) l ∨
      fs.entry? l = none ∧ left.LiesAbove out l := by
  rcases h.outside l with heq | ⟨hnone, habove⟩
  · exact .inl heq
  · by_cases hexists : fs.exists_ out = true
    · -- The parent is there, and it still is when the output directory is removed.
      obtain ⟨k, e, hstat⟩ := exists_iff.1 hexists
      have hpath : out.parent.append [out.parts.getLast hparts] = out :=
        congrArg (Path.mk out.anchor) (dropLast_concat_getLast hparts)
      have hparent : fs.isDirectory out.parent = true :=
        isDirectory_of_append hout.parent.absolute (cons_ne_nil _ [])
          (hpath.symm ▸ (stat_eq_ok_iff.1 hstat).1)
      exact .inl (h.entry?_eq hout.absolute
        (isDirectory_without hout.parent.absolute hway hparent) l)
    · have hself := hfs.nested.without_eq_self (eq_false_of_ne_true hexists)
        (eq_false_of_ne_true fun hislink ↦ hexists (hlink hislink))
      rw [hself] at hnone
      exact .inr ⟨hnone, habove⟩

/-- A script in an otherwise empty file system. -/
def bare : FileSystem where
  entries := [(["main.js"], .file (Utf8.encodeChars "console.log(1)".toList) false)]
  cwd := []

theorem isTree_bare : bare.IsTree :=
  ⟨⟨by decide, by decide⟩, by decide, nested_of_entries (by decide)⟩

/-- A launcher of programs that do **nothing**. -/
def idle : Launcher := fun fs _ _ ↦ .ok ⟨0, [], fs⟩

theorem fileSystem_idle (seen : FileSystem) (name : Text) (args : List Text) (finished : Finished)
    (h : idle seen name args = .ok finished) : finished.fileSystem = seen := by
  rw [← Except.ok.inj h]

/-- The settings of a run. -/
def settings : Config := [(.runDirectory, ".jrun"), (.program, "node")]

/-- A directory with a link to **itself** in it. -/
def selfLinked : FileSystem where
  entries := [
    (["main.js"], .file (Utf8.encodeChars "console.log(1)".toList) false),
    (["d"], .directory),
    (["d", "a.js"], .file (Utf8.encodeChars "hi()".toList) false),
    (["d", "x"], .link ".")]
  cwd := []

end Run

end ScriptTree
