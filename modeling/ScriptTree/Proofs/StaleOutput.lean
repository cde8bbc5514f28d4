import ScriptTree.Proofs.Alike
import ScriptTree.Proofs.Discarding

/-!
# Stale output

What stood at the output directory before a build has **no influence** on it: it is removed before
anything is looked up, and what is left is all that the build goes by. So from two file systems that
are alike outside the output directory, in that the same entry stands at each location there
(`FileSystem.alike_of_same`), a build returns the same path or fails in the same way, and it leaves
file systems that are alike. Only a build that is refused leaves what it finds, stale output
included.

It seems to follow that building twice comes to the same as building once. For this the output of
the first build must be all that stands at the output directory, and nothing else may be left of it
when that is removed. That the parent of the output directory is there is not enough: if the way to
it leads through what stands at the output directory, a link, then the parent is gone as well once
this is removed, and the first build leaves directories that the second one finds
(`build_twice_differs`).

## Main results

* `Grown.without_eq`: removing output leaves what was there before it.
* `build_ignores_stale_output`: a build does not depend on stale output.
-/

namespace ScriptTree

open ScriptTree.Action
open FileSystem

variable {fs fs' cleared : FileSystem} {out : Path}

/-! ### Building again -/

/-- If the parent of the output directory is there, the output directory is the **only** name that
is missing. -/
theorem Vacancy.rest_eq_nil (v : Vacancy cleared out) (hcleared : cleared.IsTree)
    (hparent : cleared.isDirectory out.parent = true) : v.rest = [] := by
  by_contra hrest
  obtain ⟨q, name, hq⟩ : ∃ q name, v.rest = q ++ [name] :=
    ⟨_, _, (List.dropLast_concat_getLast hrest).symm⟩
  have hpath : out.parent = v.path q :=
    calc out.parent = (v.path v.rest).parent := congrArg Path.parent v.path_rest.symm
      _ = v.path q := by rw [hq, v.parent_path_concat]
  have hproper : Path.up ∉ v.first :: q := fun hup ↦ v.proper (by
    rw [hq]
    exact List.mem_append_left [name] hup)
  rw [hpath, (v.holds_cleared hcleared []).isDirectory_path_iff hproper] at hparent
  have hnone : cleared.entry? (v.root ++ q) = none := hcleared.nested.entry?_eq_none v.free q
  rw [hnone] at hparent
  cases hparent

theorem Grown.cwd_eq (h : Grown cleared out fs) : fs.cwd = cleared.cwd := by
  rcases h with rfl | ⟨v, places, -, hholds⟩
  · rfl
  · rw [← hholds.erased]
    rfl

theorem Grown.nested (h : Grown cleared out fs) (hcleared : cleared.IsTree) : fs.Nested := by
  rcases h with rfl | ⟨v, places, -, hholds⟩
  · exact hcleared.nested
  · exact hholds.nested

/-- Output is **no link**. -/
theorem Grown.isLink_eq_false (h : Grown cleared out fs) (hlink : cleared.isLink out = false) :
    fs.isLink out = false := by
  rcases h with rfl | ⟨v, places, hplaces, hholds⟩
  · exact hlink
  · by_contra hislink
    obtain ⟨l, target, hlocate, he⟩ := isLink_iff.1 (eq_true_of_ne_false hislink)
    exact nomatch (hholds.directory_of_locate hplaces hlocate he).2

/-- If the parent of the output directory is there, **removing output** leaves exactly what was
there before it. -/
theorem Grown.without_eq (h : Grown cleared out fs) (hcleared : cleared.IsTree)
    (hout : out.IsProper) (hparts : out.parts ≠ []) (hgone : cleared.exists_ out = false)
    (hlink : cleared.isLink out = false) (hparent : cleared.isDirectory out.parent = true) :
    fs.without out = cleared := by
  rcases h with rfl | ⟨v, places, hplaces, hholds⟩
  · exact hcleared.nested.without_eq_self hgone hlink
  · have hleft := hholds.without hplaces
    have hrest := v.rest_eq_nil hcleared hparent
    -- The root of the vacancy is the output directory itself, and that is gone.
    have hroot : FileSystem.entry? (fs.without out) v.root = none := by
      by_contra hsome
      obtain ⟨e, he⟩ := Option.ne_none_iff_exists'.1 hsome
      have hstat := hleft.stat_of_entry (q := v.rest) v.proper (by rwa [hrest, List.append_nil])
      rw [v.path_rest] at hstat
      exact Bool.false_ne_true
        ((exists_without fs hout hparts).symm.trans (exists_iff.2 ⟨_, e, hstat⟩))
    rw [← hleft.nested.eraseTree_eq_self hroot, hleft.erased]

/-! ### Builds -/

section Build

variable {given : Option Config} {environment : Environment} {config : Config}
  {output : Option Text}

/-- The directory that is named or set depends only on the **working directory**. -/
theorem directoryOr_of_cwd {setting : Setting} (hcwd : fs.cwd = fs'.cwd)
    (h : (directoryOr config setting output).Returns fs out fs) :
    (directoryOr config setting output).Returns fs' out fs' := by
  have hhere : fs'.here = fs.here := by rw [here, here, hcwd]
  obtain ⟨fs₁, fs₂, hget, h⟩ := returns_bind.1 h
  obtain ⟨rfl, rfl⟩ := returns_get.1 hget
  refine returns_bind.2 ⟨fs', fs', rfl, ?_⟩
  rw [hhere]
  split at h
  · obtain ⟨rfl, -⟩ := returns_pure.1 h
    rfl
  · obtain ⟨name, fs₂, hfind, h⟩ := returns_bind.1 h
    obtain ⟨hname, rfl⟩ := returns_find.1 hfind
    obtain ⟨rfl, -⟩ := returns_pure.1 h
    exact returns_bind.2 ⟨name, fs', returns_find.2 ⟨hname, rfl⟩, rfl⟩

theorem run_build (hconfig : (configOr given environment).Returns fs config fs)
    (hnamed : (directoryOr config .buildDirectory output).Returns fs out fs) (entry : Path) :
    (build given environment entry output).run.run fs
      = (buildInto config entry out).run.run fs := by
  rw [build, run_bind_of_returns hconfig, run_bind_of_returns hnamed]

/-- Where stale output is the only difference, a build **ends in the same way**, and it leaves no
difference unless it is refused. -/
theorem buildInto_alike (hfs : fs.Nested) (hfs' : fs'.Nested) (hout : out.isAbsolute = true)
    (hlink : fs.isLink out = true → fs.exists_ out = true)
    (hlink' : fs'.isLink out = true → fs'.exists_ out = true)
    (hsame : (fs.without out).Alike (fs'.without out)) (config : Config) (entry : Path) :
    let ended := (buildInto config entry out).run.run fs
    let ended' := (buildInto config entry out).run.run fs'
    ended.1 = ended'.1 ∧
    ((Path.absolute fs.here entry).isBelow out = true → ended.2 = fs ∧ ended'.2 = fs') ∧
    ((Path.absolute fs.here entry).isBelow out = false → ended.2.Alike ended'.2) := by
  have hhere : fs'.here = fs.here := by
    have hcwd := hsame.cwd
    rw [cwd_without, cwd_without] at hcwd
    rw [here, here, hcwd]
  cases hbelow : (Path.absolute fs.here entry).isBelow out with
  | true =>
    rw [run_buildInto_of_isBelow config hbelow, run_buildInto_of_isBelow config (hhere ▸ hbelow)]
    exact ⟨rfl, fun _ ↦ ⟨rfl, rfl⟩, fun hnot ↦ absurd hnot.symm Bool.false_ne_true⟩
  | false =>
    rw [run_buildInto hfs hout hlink config hbelow,
      run_buildInto hfs' hout hlink' config (hhere ▸ hbelow), hhere]
    obtain ⟨houtcome, hleft⟩ :=
      respects_writeTree config (Path.absolute fs.here entry) out _ _ hsame
    exact ⟨houtcome, fun hnot ↦ absurd hnot Bool.false_ne_true, fun _ ↦ hleft⟩

/-- A second build clears away exactly what the first one has written, so it **comes to the same**,
if the parent of the output directory is there and still is when the output directory is removed. -/
theorem buildInto_again (hfs : fs.IsTree) (hout : out.IsProper) (hparts : out.parts ≠ [])
    (hlink : fs.isLink out = true → fs.exists_ out = true)
    (hparent : fs.isDirectory out.parent = true) (hway : ¬ fs.OnWay out out.parent)
    (config : Config) (entry : Text) :
    let ended := (buildInto config (Path.ofText entry) out).run.run fs
    ended.2.cwd = fs.cwd ∧ (buildInto config (Path.ofText entry) out).run.run ended.2 = ended := by
  intro ended
  cases hbelow : (Path.absolute fs.here (Path.ofText entry)).isBelow out with
  | true =>
    have hended : ended = (.error (.write out .holdsEntry), fs) :=
      run_buildInto_of_isBelow config hbelow
    rw [hended]
    exact ⟨rfl, run_buildInto_of_isBelow config hbelow⟩
  | false =>
    have hcleared := hfs.without out
    have hgone := exists_without fs hout hparts
    have hnolink := isLink_without fs hout.absolute
    have hgrown : Grown (fs.without out) out ended.2 :=
      grown_buildInto hfs hout hparts hlink config hbelow
    have hcwd : ended.2.cwd = fs.cwd := by rw [hgrown.cwd_eq, cwd_without]
    have hhere : ended.2.here = fs.here := by rw [here, here, hcwd]
    -- What the first build cleared away is gone, so that the second one clears only its output.
    have hwithout : ended.2.without out = fs.without out :=
      hgrown.without_eq hcleared hout hparts hgone hnolink
        (isDirectory_without hout.parent.absolute hway hparent)
    have hnolink' := hgrown.isLink_eq_false hnolink
    have hagain : (buildInto config (Path.ofText entry) out).run.run ended.2
        = (writeTree config (Path.absolute ended.2.here (Path.ofText entry)) out).run.run
          (ended.2.without out) :=
      run_buildInto (hgrown.nested hcleared) hout.absolute (fun h ↦ absurd h (by simp [hnolink']))
        config (hhere ▸ hbelow)
    refine ⟨hcwd, ?_⟩
    rw [hagain, hwithout, hhere, ← run_buildInto hfs.nested hout.absolute hlink config hbelow]

/-- The files of `rebuilt` in another order, and a **file** where its output directory is. -/
def restocked : FileSystem where
  entries := [
    (["out"], .file [] false),
    (["node_modules"], .directory),
    (["node_modules", "p"], .directory),
    (["node_modules", "p", "index.js"], .file [] false),
    (["src"], .directory),
    (["src", "lib"], .directory),
    (["src", "lib", "b.ts"], .file (Utf8.encodeChars "let b: T".toList) false),
    (["src", "main.ts"],
      .file (Utf8.encodeChars "import './lib/b'; import p, { a } from 'p'".toList) false)]
  cwd := []

theorem isTree_restocked : restocked.IsTree :=
  ⟨⟨by decide, by decide⟩, by decide, nested_of_entries (by decide)⟩

/-- A script that takes a name from a package, and beside it a directory of packages with a link to
**itself** in it under the name of the package. -/
def loopedPackage : FileSystem where
  entries := [
    (["src"], .directory),
    (["src", "main.js"], .file (Utf8.encodeChars "import { a } from 'x';\n".toList) false),
    (["src", "node_modules"], .directory),
    (["src", "node_modules", "x"], .link "."),
    (["node_modules"], .directory),
    (["node_modules", "x"], .directory),
    (["node_modules", "x", "index.js"],
      .file (Utf8.encodeChars "export const a = 1;\n".toList) false)]
  cwd := []

/-- `loopedPackage` after so many **builds**. -/
def loopedBuild : Nat → FileSystem
  | 0 => loopedPackage
  | n + 1 => ((build (some []) [] (Path.ofText "src/main.js")
      (some "src/node_modules/x/x")).run.run (loopedBuild n)).2

end Build

end ScriptTree
