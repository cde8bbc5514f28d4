import ScriptTree.Proofs.EveryOrder

/-!
# Packages apart from the output

A package that a file imports names from is looked for in the `node_modules` directories above the
file. If none of these lies in the output or holds it, if there are no links in them, and if the
package names a path of its own directory, then all that is looked up stays within them: nothing
that is written can change what is found, and the packages lie **apart** from the output.

The last two conditions cannot be left out. A link in a `node_modules` directory, or a manifest that
names a path outside it, may lead to a file that is about to be written.

## Main results

* `Vacancy.agreeBelow`: a directory without links outside the output stays the same.
* `FileSystem.AgreeBelow.resolve_eq`: what a path there stands for stays the same.
* `Vacancy.apart_of_secluded`: secluded packages lie apart from the output.
-/

namespace ScriptTree

open List

namespace FileSystem

variable {fs fs' : FileSystem} {p : Path} {names : List Text}

/-- Paths **at and below** some path lead to the same in two file systems. -/
structure AgreeBelow (fs fs' : FileSystem) (p : Path) : Prop where
  stat : ∀ names, Path.up ∉ names → fs.stat (p.append names) = fs'.stat (p.append names)
  list : ∀ names, Path.up ∉ names → fs.list (p.append names) = fs'.list (p.append names)

namespace AgreeBelow

theorem isFile (h : fs.AgreeBelow fs' p) (hup : Path.up ∉ names) :
    fs.isFile (p.append names) = fs'.isFile (p.append names) := by
  rw [FileSystem.isFile, FileSystem.isFile, h.stat names hup]

theorem isDirectory (h : fs.AgreeBelow fs' p) (hup : Path.up ∉ names) :
    fs.isDirectory (p.append names) = fs'.isDirectory (p.append names) := by
  rw [FileSystem.isDirectory, FileSystem.isDirectory, h.stat names hup]

theorem read (h : fs.AgreeBelow fs' p) (hup : Path.up ∉ names) :
    fs.read (p.append names) = fs'.read (p.append names) := by
  rw [FileSystem.read, FileSystem.read, h.stat names hup]

theorem child_append (p : Path) (names : List Text) (name : Text) :
    (p.append names).child name = p.append (names ++ [name]) := by
  simp [Path.append, Path.child]

theorem up_notMem_concat {name : Text} (hup : Path.up ∉ names) (hname : Path.IsProperName name) :
    Path.up ∉ names ++ [name] := by
  rw [mem_append, not_or, mem_singleton]
  exact ⟨hup, fun heq ↦ hname.2 heq.symm⟩

theorem filesWithStem (h : fs.AgreeBelow fs' p) (hfs' : fs'.WellNamed) (hup : Path.up ∉ names)
    {found : List Text} (hlist : fs'.list (p.append names) = .ok found) (stem : Text) :
    fs.filesWithStem (p.append names) found stem
      = fs'.filesWithStem (p.append names) found stem := by
  refine filter_congr fun name hname ↦ ?_
  rw [child_append, h.isFile (up_notMem_concat hup (hfs'.of_mem_list hlist hname))]

theorem indexFiles (h : fs.AgreeBelow fs' p) (hfs' : fs'.WellNamed) (hup : Path.up ∉ names) :
    fs.indexFiles (p.append names) = fs'.indexFiles (p.append names) := by
  rw [FileSystem.indexFiles, FileSystem.indexFiles, h.isDirectory hup, h.list names hup]
  cases hlist : fs'.list (p.append names) with
  | error e => rfl
  | ok found =>
    simp only [h.filesWithStem hfs' hup hlist]

variable {name hint : Text} {mechanism : Mechanism} {specifier : Option Text}

/-- What a path **stands for** is the same: only its directory and what is in it are looked at. -/
theorem resolve_eq (h : fs.AgreeBelow fs' p) (hfs' : fs'.WellNamed)
    (hup : Path.up ∉ names ++ [name]) :
    fs.resolve (p.append (names ++ [name])) hint mechanism specifier
      = fs'.resolve (p.append (names ++ [name])) hint mechanism specifier := by
  have hup' : Path.up ∉ names := fun hmem ↦ hup (mem_append_left _ hmem)
  rw [resolve, resolve, h.isFile hup, h.indexFiles hfs' hup, parent_append_concat,
    h.list names hup']
  cases hlist : fs'.list (p.append names) with
  | error e => rfl
  | ok found => simp only [h.filesWithStem hfs' hup' hlist]

end AgreeBelow

/-- What a path stands for lies **in its directory** or in an index directory. -/
theorem exists_of_resolve {name hint : Text} {mechanism : Mechanism} {specifier : Option Text}
    {found : Path} (hfs : fs.WellNamed) (hup : Path.up ∉ names ++ [name])
    (h : fs.resolve (p.append (names ++ [name])) hint mechanism specifier = .ok found) :
    ∃ names', Path.up ∉ names' ∧ found = p.append names' := by
  have hup' : Path.up ∉ names := fun hmem ↦ hup (mem_append_left _ hmem)
  rcases resolve_cases h with ⟨-, rfl⟩ | ⟨listed, indices, choice, hlist, hindices, hpick, rfl⟩
  · exact ⟨_, hup, rfl⟩
  · have hoffered := isOffered_of_pick hpick
    cases choice with
    | sibling other =>
      refine ⟨names ++ [other], AgreeBelow.up_notMem_concat hup' ?_, ?_⟩
      · exact hfs.of_mem_list hlist (mem_of_mem_filter hoffered)
      · rw [choicePath, parent_append_concat, AgreeBelow.child_append]
    | index other =>
      refine ⟨names ++ [name] ++ [other], AgreeBelow.up_notMem_concat hup ?_, ?_⟩
      · split at hindices
        · exact hfs.of_mem_indexFiles hindices hoffered
        · simp only [Except.ok.injEq] at hindices
          simp [IsOffered, ← hindices] at hoffered
      · rw [choicePath, AgreeBelow.child_append]

theorem descend_of_ne_directory {follow : Bool}
    {onLink : Location → List Text → Except OsCause Location} {l : Location} {name : Text}
    (hl : fs.entry? l ≠ some .directory) : fs.descend follow onLink l (name :: names)
      = .error (if (fs.entry? l).isSome then .notDirectory else .notFound) := by
  rw [descend]
  cases hentry : fs.entry? l with
  | none => rfl
  | some e =>
    cases e with
    | file content executable => rfl
    | link target => rfl
    | directory => exact absurd hentry hl

/-- A descent that meets **no links** leads to the location that its names spell, and depends only
on what stands on the way. -/
theorem descend_congr {follow : Bool}
    {onLink onLink' : Location → List Text → Except OsCause Location} {l : Location}
    (hup : Path.up ∉ names)
    (hsame : ∀ before, before <+: names → fs.entry? (l ++ before) = fs'.entry? (l ++ before))
    (hlinks : ∀ before target, before <+: names → before ≠ [] →
      fs'.entry? (l ++ before) ≠ some (.link target)) :
    fs.descend follow onLink l names = fs'.descend follow onLink' l names ∧
      ∀ k, fs'.descend follow onLink' l names = .ok k → k = l ++ names := by
  induction names generalizing l with
  | nil => exact ⟨rfl, fun k hk ↦ by rw [← Except.ok.inj hk, append_nil]⟩
  | cons name names ih =>
    have hhere : fs.entry? l = fs'.entry? l := by simpa using hsame [] nil_prefix
    have hfirst : [name] <+: name :: names := ⟨names, rfl⟩
    have hnext := hsame [name] hfirst
    have hname : name ≠ Path.up := fun heq ↦ hup (by simp [heq])
    by_cases hdir : fs'.entry? l = some .directory
    · cases he : fs'.entry? (l ++ [name]) with
      | none =>
        rw [descend_none (hhere.trans hdir) hname (hnext.trans he), descend_none hdir hname he]
        exact ⟨rfl, fun k hk ↦ by cases hk⟩
      | some e =>
        have hlink : ∀ target, e ≠ .link target := fun target heq ↦
          hlinks [name] target hfirst (by simp) (heq ▸ he)
        rw [descend_entry (hhere.trans hdir) hname (hnext.trans he) hlink,
          descend_entry hdir hname he hlink]
        have hrest (before : List Text) (hbefore : before <+: names) :
            name :: before <+: name :: names := cons_prefix_cons.2 ⟨rfl, hbefore⟩
        have hstep := ih (l := l ++ [name]) (fun hmem ↦ hup (mem_cons_of_mem _ hmem))
          (fun before hbefore ↦ by
            rw [← append_cons]
            exact hsame _ (hrest before hbefore))
          (fun before target hbefore hne ↦ by
            rw [← append_cons]
            exact hlinks _ target (hrest before hbefore) (by simp))
        refine ⟨hstep.1, fun k hk ↦ ?_⟩
        rw [hstep.2 k hk, ← append_cons]
    · -- Both descents fail at once, for the same reason.
      rw [descend_of_ne_directory hdir, descend_of_ne_directory (hhere ▸ hdir), hhere]
      exact ⟨rfl, fun k hk ↦ by cases hk⟩

/-! ### Packages -/

/-- The path that a package **names** for a subpath. -/
def packageEntry (fs : FileSystem) (package : Path) (subpath specifier : Text) :
    Except Failure Path := do
  let manifest ← fs.manifest package
  match manifest.lookup ("exports" : Text) with
  | some exports =>
    match matchExports exports subpath with
    | some target => return package.join (Path.ofText target)
    | none => throw (.resolution .imported (package.join (Path.ofText subpath)) (some specifier))
  | none =>
    return package.join (Path.ofText (if subpath = "." then mainOf manifest else subpath))

theorem resolveSubpath_eq (fs : FileSystem) (package : Path) (subpath specifier : Text) :
    fs.resolveSubpath package subpath specifier
      = fs.packageEntry package subpath specifier >>= (fs.resolveInside · specifier) := by
  rw [packageEntry, bind_assoc]
  refine bind_congr fun manifest ↦ ?_
  cases manifest.lookup ("exports" : Text) with
  | some exports =>
    cases hmatch : matchExports exports subpath <;> simp only [hmatch] <;> rfl
  | none =>
    by_cases hself : subpath = "."
    · simp only [if_pos hself]
      rfl
    · simp only [if_neg hself]
      rfl

namespace AgreeBelow

theorem packageEntry (h : fs.AgreeBelow fs' p) (hup : Path.up ∉ names) (subpath specifier : Text) :
    fs.packageEntry (p.append names) subpath specifier
      = fs'.packageEntry (p.append names) subpath specifier := by
  have hmanifest : fs.manifest (p.append names) = fs'.manifest (p.append names) := by
    rw [manifest, manifest, child_append, json, json, h.read (up_notMem_concat hup (by decide))]
  rw [FileSystem.packageEntry, FileSystem.packageEntry, hmanifest]

/-- The **format** of the file that a path of a package leads to is the same. -/
theorem classify_resolveInside (h : fs.AgreeBelow fs' p) (hfs' : fs'.WellNamed) {inside : Path}
    (hinside : inside.normal = p.append names) (hup : Path.up ∉ names) (hnames : names ≠ [])
    (specifier : Text) :
    (fs.resolveInside inside specifier >>= fs.classify)
      = (fs'.resolveInside inside specifier >>= fs'.classify) := by
  obtain ⟨before, last, hcandidate, hup'⟩ : ∃ before last,
      (if fs'.isDirectory (p.append names) then (p.append names).child indexStem
        else p.append names) = p.append (before ++ [last]) ∧ Path.up ∉ before ++ [last] := by
    split
    · exact ⟨names, indexStem, child_append .., up_notMem_concat hup (by decide)⟩
    · have hself := dropLast_concat_getLast hnames
      exact ⟨names.dropLast, names.getLast hnames, by rw [hself], by rwa [hself]⟩
  rw [resolveInside, resolveInside, hinside, h.isDirectory hup, hcandidate,
    h.resolve_eq hfs' hup']
  cases hfound : fs'.resolve (p.append (before ++ [last])) ".js" .imported (some specifier) with
  | error e => rfl
  | ok found =>
    obtain ⟨names', hup'', rfl⟩ := exists_of_resolve hfs' hup' hfound
    show fs.classify _ = fs'.classify _
    rw [classify, classify, readText, readText, h.read hup'']

end AgreeBelow

end FileSystem

open FileSystem

namespace Vacancy

variable {cleared fs : FileSystem} {out : Path} (v : Vacancy cleared out)

/-! ### Outside the output -/

/-- A location lies **outside** the output: neither is it below the root nor the root below it. -/
def Outside (l : Location) : Prop := ¬ v.root <+: l ∧ ¬ l <+: v.root

variable {v}

theorem Outside.append {l : Location} (h : v.Outside l) (names : List Text) :
    ¬ v.root <+: l ++ names := by
  intro hbelow
  rcases List.prefix_or_prefix_of_prefix hbelow (prefix_append l names) with hroot | hl
  · exact h.1 hroot
  · exact h.2 hl

/-- Outside the output **nothing** is written. -/
theorem entry?_eq (herased : fs.eraseTree v.root = cleared) {l : Location} (hl : ¬ v.root <+: l) :
    fs.entry? l = cleared.entry? l := by
  rw [← herased, entry?_eraseTree v.root_ne_nil, if_neg hl]

theorem names_eq (herased : fs.eraseTree v.root = cleared) {l : Location} (h : v.Outside l)
    (names : List Text) : fs.names (l ++ names) = cleared.names (l ++ names) := by
  rw [← herased, FileSystem.names, FileSystem.names, eraseTree, filterMap_filter]
  refine filterMap_congr fun e _ ↦ ?_
  by_cases hbelow : v.root <+: e.1
  · -- What is below the root is in no directory outside.
    rw [if_neg (by simpa using hbelow)]
    cases hlast : e.1.getLast? with
    | none => rfl
    | some name =>
      refine if_neg fun hdrop ↦ ?_
      have hself : e.1 = l ++ (names ++ [name]) := by
        rw [← append_assoc, ← hdrop]
        exact (dropLast_append_getLast? _ hlast).symm
      exact h.append (names ++ [name]) (hself ▸ hbelow)
  · rw [if_pos (by simpa [← Bool.not_eq_true] using hbelow)]

/-- The `node_modules` directory in a directory lies **secluded** from the output: outside it, and
without links in it. It need not be there. -/
structure Secludes (v : Vacancy cleared out) (d : Path) : Prop where
  absolute : d.isAbsolute = true
  outside : ∃ l, cleared.stat d = .ok (l, .directory) ∧ v.Outside (l ++ [("node_modules" : Text)]) ∧
    ∀ names target,
      cleared.entry? (l ++ [("node_modules" : Text)] ++ names) ≠ some (.link target)

namespace Secludes

variable {d : Path} {l : Location} {names : List Text}

/-- Lookups in such a directory lead to the **same locations**, those that their names spell. -/
theorem locate_eq (hd : d.isAbsolute = true) (hstat : cleared.stat d = .ok (l, .directory))
    (houtside : v.Outside (l ++ [("node_modules" : Text)]))
    (hlinks : ∀ names target,
      cleared.entry? (l ++ [("node_modules" : Text)] ++ names) ≠ some (.link target))
    (herased : fs.eraseTree v.root = cleared) (hup : Path.up ∉ names) :
    fs.locate true ((d.child "node_modules").append names)
        = cleared.locate true ((d.child "node_modules").append names) ∧
      ∀ k, cleared.locate true ((d.child "node_modules").append names) = .ok k →
        k = l ++ [("node_modules" : Text)] ++ names := by
  obtain ⟨hfound, hdir⟩ := stat_eq_ok_iff.1 hstat
  obtain ⟨hfound', hdir'⟩ := stat_eq_ok_iff.1 (stat_of_keeps (keeps_of_erased herased) hd hstat)
  have hpath : (d.child "node_modules").append names = d.append ("node_modules" :: names) := by
    simp [Path.append, Path.child]
  -- Both lookups find the directory, and go on from there through what is the same.
  rw [locate_of_isAbsolute hd] at hfound hfound'
  obtain ⟨left, hleft⟩ := exists_locateFrom_append hfound
  obtain ⟨left', hleft'⟩ := exists_locateFrom_append hfound'
  rw [hpath, locate_of_isAbsolute (p := d.append _) hd, locate_of_isAbsolute (p := d.append _) hd]
  show fs.locateFrom true linkLimit [] (d.parts ++ _)
    = cleared.locateFrom true linkLimit [] (d.parts ++ _) ∧
      ∀ k, cleared.locateFrom true linkLimit [] (d.parts ++ _) = _ → _
  rw [hleft true _ (by simp), hleft' true _ (by simp), locateFrom_eq, locateFrom_eq,
    ← append_cons]
  refine descend_congr ?_ ?_ ?_
  · rw [mem_cons, not_or]
    exact ⟨by decide, hup⟩
  · intro before hbefore
    cases before with
    | nil => rw [append_nil, hdir, hdir']
    | cons first before =>
      obtain ⟨rfl, -⟩ := cons_prefix_cons.1 hbefore
      rw [append_cons]
      exact entry?_eq herased (houtside.append before)
  · intro before target hbefore hne
    obtain ⟨first, before, rfl⟩ := exists_cons_of_ne_nil hne
    obtain ⟨rfl, -⟩ := cons_prefix_cons.1 hbefore
    rw [append_cons]
    exact hlinks before target

/-- In a `node_modules` directory that lies secluded **everything stays the same**. -/
theorem agreeBelow (h : v.Secludes d) (herased : fs.eraseTree v.root = cleared) :
    fs.AgreeBelow cleared (d.child "node_modules") := by
  obtain ⟨l, hstat, houtside, hlinks⟩ := h.outside
  have hlocate (names : List Text) (hup : Path.up ∉ names) :=
    locate_eq h.absolute hstat houtside hlinks herased hup
  have hstats (names : List Text) (hup : Path.up ∉ names) :
      fs.stat ((d.child "node_modules").append names)
        = cleared.stat ((d.child "node_modules").append names) := by
    obtain ⟨heq, hk⟩ := hlocate names hup
    rw [stat, stat, heq]
    cases hfound : cleared.locate true ((d.child "node_modules").append names) with
    | error cause => rfl
    | ok k =>
      simp only [bind, Except.bind, hk k hfound, entry?_eq herased (houtside.append names)]
  refine ⟨hstats, fun names hup ↦ ?_⟩
  rw [list, list, hstats names hup]
  cases hfound : cleared.stat ((d.child "node_modules").append names) with
  | error cause => rfl
  | ok found =>
    obtain ⟨k, e⟩ := found
    cases e with
    | directory =>
      have hk := (hlocate names hup).2 k (stat_eq_ok_iff.1 hfound).1
      simp only [bind, Except.bind, hk, names_eq herased houtside]
    | file content executable => rfl
    | link target => rfl

end Secludes

/-! ### Packages that are found outside the output -/

/-- A package is looked for and found **outside the output**: the `node_modules` directories above
the importing file lie secluded, the name of the package leads into them, and the path that the
package names lies in the one where it is found. -/
structure Secluded (v : Vacancy cleared out) (importer : Path) (specifier : Text) : Prop where
  directories : ∀ d ∈ importer :: importer.parents, v.Secludes d
  relative : (Path.ofText (splitPackage specifier).1).isAbsolute = false
  down : Path.up ∉ (Path.ofText (splitPackage specifier).1).parts
  inside : ∀ d ∈ importer :: importer.parents, ∀ p,
    cleared.packageEntry (packagePath d (splitPackage specifier).1) (splitPackage specifier).2
      specifier = .ok p →
    ∃ names, names ≠ [] ∧ Path.up ∉ names ∧ p.normal = (d.child "node_modules").append names

/-- The **format** of such a package does not depend on what is written. -/
theorem Secluded.externalFormat_eq {importer : Path} {specifier : Text}
    (h : v.Secluded importer specifier) (hcleared : cleared.WellNamed)
    (herased : fs.eraseTree v.root = cleared) :
    externalFormat fs importer specifier = externalFormat cleared importer specifier := by
  have hpath (d : Path) : packagePath d (splitPackage specifier).1
      = (d.child "node_modules").append (Path.ofText (splitPackage specifier).1).parts := by
    rw [packagePath, Path.join, if_neg (by simp [h.relative])]
    rfl
  have hagree (d) (hd : d ∈ importer :: importer.parents) :=
    (h.directories d hd).agreeBelow herased
  have hfind : (importer :: importer.parents).find?
        (fun d ↦ fs.isDirectory (packagePath d (splitPackage specifier).1))
      = (importer :: importer.parents).find?
        (fun d ↦ cleared.isDirectory (packagePath d (splitPackage specifier).1)) := by
    refine find?_congr fun d hd ↦ ?_
    rw [hpath d, (hagree d hd).isDirectory h.down]
  rw [externalFormat, externalFormat, resolvePackage, resolvePackage]
  simp only [hfind]
  cases hfound : (importer :: importer.parents).find?
      (fun d ↦ cleared.isDirectory (packagePath d (splitPackage specifier).1)) with
  | none => rfl
  | some d =>
    have hd := mem_of_find?_eq_some hfound
    simp only [resolveSubpath_eq]
    have hentry : fs.packageEntry (packagePath d (splitPackage specifier).1)
          (splitPackage specifier).2 specifier
        = cleared.packageEntry (packagePath d (splitPackage specifier).1)
          (splitPackage specifier).2 specifier := by
      rw [hpath d, (hagree d hd).packageEntry h.down]
    rw [hentry]
    cases hp : cleared.packageEntry (packagePath d (splitPackage specifier).1)
        (splitPackage specifier).2 specifier with
    | error e => rfl
    | ok p =>
      obtain ⟨names, hnames, hup, hnormal⟩ := h.inside d hd p hp
      exact (hagree d hd).classify_resolveInside hcleared hnormal hup hnames specifier

/-- Packages that are looked for and found outside the output lie **apart** from it. -/
theorem apart_of_secluded {g : Graph} {plan : Plan} (hcleared : cleared.WellNamed)
    (h : ∀ file ∈ g.files, ∀ consulted, plan.consulted g file = .ok consulted →
      ∀ specifier ∈ consulted, v.Secluded file.directory specifier) : v.Apart g plan :=
  fun file hfile consulted hconsulted specifier hspecifier _ herased ↦
    (h file hfile consulted hconsulted specifier hspecifier).externalFormat_eq hcleared herased

end Vacancy

end ScriptTree
