import ScriptTree.Proofs.Clearing
import ScriptTree.Proofs.Targets

/-!
# The way to a file

Looking up a path **passes** locations: the directories that it goes through, the links that it
follows, and in the end what it finds. When entries are removed, a path still leads to what it led
to exactly as long as everything that it passes is there. The *trail* of a path is the list of these
locations. Because of links it can hold locations that are not spelled like a part of the path.

Before a build the output directory is removed, unless the entry lies below it. That test compares
two paths as they are spelled, and it looks at the path of the entry, not at the file that the path
stands for. So it says nothing about locations, and the file of the entry is lost exactly when its
trail passes a location that is removed. `resetOutput_keeps_iff` says so, and that this takes a
link, the other root, or an output directory that is the very file.

## Main results

* `FileSystem.stat_iff_trail`: what is still found when entries are removed.
* `FileSystem.prefix_of_mem_trail`: the trail of a path that leads where it says.
* `resetOutput_keeps_iff`: when clearing the output directory leaves the file of the entry.
-/

namespace ScriptTree

open List

namespace FileSystem

variable {fs fs' : FileSystem} {d l k : Location} {e : Entry} {p : Path} {names : List Text}
  {name : Text} {links : Nat}

/-! ### Trails -/

/-- The locations that a descent **passes** on the way to what it finds. At a symbolic link,
`onLink` goes on with the location of the directory and the names that are left. -/
def descendTrail (fs : FileSystem) (onLink : Location → List Text → List Location)
    (from_ : Location) : List Text → List Location
  | [] => [from_]
  | name :: rest =>
    if name = Path.up then from_ :: descendTrail fs onLink from_.dropLast rest
    else
      match fs.entry? (from_ ++ [name]) with
      | some (.link target) =>
        from_ :: (from_ ++ [name]) ::
          onLink (if (Path.ofText target).isAbsolute then [] else from_)
            ((Path.ofText target).parts ++ rest)
      | _ => from_ :: descendTrail fs onLink (from_ ++ [name]) rest

/-- The locations that are passed when so many more links may be followed. -/
def trailFrom (fs : FileSystem) : Nat → Location → List Text → List Location
  | 0, d, names => fs.descendTrail (fun _ _ ↦ []) d names
  | links + 1, d, names => fs.descendTrail (fs.trailFrom links) d names

/-- The **trail** of a path: the locations that looking it up passes, all links followed. -/
def trail (fs : FileSystem) (p : Path) : List Location :=
  fs.trailFrom linkLimit (if p.isAbsolute then [] else fs.cwd) p.parts

section Descend

variable {onLink onLink' : Location → List Text → Except OsCause Location}
  {onTrail : Location → List Text → List Location}

/-- One step of a trail. -/
alias descendTrail_cons := descendTrail.eq_2

theorem descendTrail_up :
    fs.descendTrail onTrail d (Path.up :: names)
      = d :: fs.descendTrail onTrail d.dropLast names := by
  rw [descendTrail_cons, if_pos rfl]

theorem descendTrail_link {target : Text} (hname : name ≠ Path.up)
    (hnext : fs.entry? (d ++ [name]) = some (.link target)) :
    fs.descendTrail onTrail d (name :: names)
      = d :: (d ++ [name]) :: onTrail (if (Path.ofText target).isAbsolute then [] else d)
          ((Path.ofText target).parts ++ names) := by
  rw [descendTrail_cons, if_neg hname, hnext]

theorem descendTrail_entry (hname : name ≠ Path.up) (hnext : fs.entry? (d ++ [name]) = some e)
    (he : ∀ target, e ≠ .link target) :
    fs.descendTrail onTrail d (name :: names)
      = d :: fs.descendTrail onTrail (d ++ [name]) names := by
  rw [descendTrail_cons, if_neg hname, hnext]
  cases e with
  | file content executable => rfl
  | directory => rfl
  | link target => exact absurd rfl (he target)

/-- A descent passes the location at which it **starts**. -/
theorem start_mem_descendTrail : d ∈ fs.descendTrail onTrail d names := by
  cases names with
  | nil => exact mem_singleton_self d
  | cons name names =>
    rw [descendTrail_cons]
    split
    · exact mem_cons_self
    · split <;> exact mem_cons_self

/-- What is still there where nothing is new is **unchanged**. -/
theorem Keeps.entry?_eq (hkeeps : fs'.Keeps fs) (h : fs'.entry? l ≠ none) :
    fs'.entry? l = fs.entry? l := by
  obtain ⟨e, he⟩ := Option.ne_none_iff_exists'.1 h
  rw [he, hkeeps l e he]

/-- **One descent** where entries are removed: it still finds what it has found exactly when all
that it passes is there. -/
theorem descend_iff_trail (hkeeps : fs'.Keeps fs)
    (honLink : ∀ d' names', onLink d' names' = .ok l →
      (onLink' d' names' = .ok l ∧ fs'.entry? l ≠ none ↔
        ∀ k ∈ onTrail d' names', fs'.entry? k ≠ none))
    (h : fs.descend true onLink d names = .ok l) :
    fs'.descend true onLink' d names = .ok l ∧ fs'.entry? l ≠ none ↔
      ∀ k ∈ fs.descendTrail onTrail d names, fs'.entry? k ≠ none := by
  induction names generalizing d with
  | nil =>
    cases h
    simp [descend, descendTrail]
  | cons name names ih =>
    obtain ⟨hd, hcases⟩ := descend_cases h
    -- Without the directory that it starts from, the descent leads nowhere.
    by_cases hstart : fs'.entry? d = none
    · refine iff_of_false (fun hfound ↦ ?_) fun hall ↦ ?_
      · have hd' := directory_of_descend hfound.1
        rw [hstart] at hd'
        cases hd'
      · exact hall d start_mem_descendTrail hstart
    have hd' : fs'.entry? d = some .directory := (hkeeps.entry?_eq hstart).trans hd
    obtain rfl | ⟨hname, ⟨target, hnext⟩ | ⟨e, hnext, he⟩⟩ := hcases
    · rw [descend_up hd] at h
      rw [descend_up hd', descendTrail_up, forall_mem_cons]
      exact (ih h).trans ⟨fun hall ↦ ⟨hstart, hall⟩, fun hall ↦ hall.2⟩
    · rw [descend_link hd hname hnext, if_neg (by simp)] at h
      rw [descendTrail_link hname hnext, forall_mem_cons, forall_mem_cons]
      by_cases hlink : fs'.entry? (d ++ [name]) = none
      · refine iff_of_false (fun hfound ↦ ?_) fun hall ↦ hall.2.1 hlink
        rw [descend_none hd' hname hlink] at hfound
        cases hfound.1
      · rw [descend_link hd' hname ((hkeeps.entry?_eq hlink).trans hnext), if_neg (by simp)]
        exact (honLink _ _ h).trans ⟨fun hall ↦ ⟨hstart, hlink, hall⟩, fun hall ↦ hall.2.2⟩
    · rw [descend_entry hd hname hnext he] at h
      rw [descendTrail_entry hname hnext he, forall_mem_cons]
      by_cases hgone : fs'.entry? (d ++ [name]) = none
      · refine iff_of_false (fun hfound ↦ ?_) fun hall ↦ hall.2 _ start_mem_descendTrail hgone
        rw [descend_none hd' hname hgone] at hfound
        cases hfound.1
      · rw [descend_entry hd' hname ((hkeeps.entry?_eq hgone).trans hnext) he]
        exact (ih h).trans ⟨fun hall ↦ ⟨hstart, hall⟩, fun hall ↦ hall.2⟩

/-- Where there are no links, a descent passes the locations that its names **spell**. -/
theorem prefix_of_mem_descendTrail (hnested : fs.Nested) (hup : Path.up ∉ names)
    (he : fs.entry? (d ++ names) = some e) (hlink : ∀ target, e ≠ .link target)
    (hk : k ∈ fs.descendTrail onTrail d names) : k <+: d ++ names := by
  induction names generalizing d with
  | nil =>
    rw [mem_singleton.1 hk, append_nil]
  | cons name names ih =>
    have hname : name ≠ Path.up := fun h ↦ hup (h ▸ mem_cons_self)
    rw [append_cons] at he ⊢
    have hnext : ∃ e', fs.entry? (d ++ [name]) = some e' ∧ ∀ target, e' ≠ .link target := by
      by_cases hnames : names = []
      · exact ⟨e, by rwa [hnames, append_nil] at he, hlink⟩
      · exact ⟨_, hnested.directory_of_prefix hnames he, by simp⟩
    obtain ⟨e', hnext, hlink'⟩ := hnext
    rw [descendTrail_entry hname hnext hlink'] at hk
    rcases mem_cons.1 hk with rfl | hk
    · rw [append_assoc]
      exact prefix_append _ _
    · exact ih (fun h ↦ hup (mem_cons_of_mem _ h)) he hk

end Descend

theorem locateFrom_iff_trail (hkeeps : fs'.Keeps fs)
    (h : fs.locateFrom true links d names = .ok l) :
    fs'.locateFrom true links d names = .ok l ∧ fs'.entry? l ≠ none ↔
      ∀ k ∈ fs.trailFrom links d names, fs'.entry? k ≠ none := by
  induction links generalizing d names with
  | zero =>
    rw [locateFrom_eq] at h ⊢
    exact descend_iff_trail hkeeps (fun _ _ h ↦ absurd h followLink_zero_ne) h
  | succ links ih => exact descend_iff_trail hkeeps (fun _ _ h ↦ ih h) h

/-- Where entries are removed, a path **still leads** to what it led to exactly when all that it
passes is there. -/
theorem stat_iff_trail (hkeeps : fs'.Keeps fs) (hp : p.isAbsolute = true)
    (h : fs.stat p = .ok (l, e)) :
    fs'.stat p = .ok (l, e) ↔ ∀ k ∈ fs.trail p, fs'.entry? k ≠ none := by
  obtain ⟨hlocate, hentry⟩ := stat_eq_ok_iff.1 h
  rw [locate_of_isAbsolute hp] at hlocate
  rw [stat_eq_ok_iff, locate_of_isAbsolute hp, trail, if_pos hp,
    ← locateFrom_iff_trail hkeeps hlocate]
  refine and_congr_right' ⟨fun he hnone ↦ ?_, fun hne ↦ (hkeeps.entry?_eq hne).trans hentry⟩
  exact nomatch he.symm.trans hnone

/-- Where entries are removed, a file is **left** exactly when all that its path passes is there. -/
theorem isFile_iff_trail (hkeeps : fs'.Keeps fs) (hp : p.isAbsolute = true)
    (h : fs.isFile p = true) :
    fs'.isFile p = true ↔ ∀ k ∈ fs.trail p, fs'.entry? k ≠ none := by
  obtain ⟨l, content, executable, hstat⟩ := isFile_iff.1 h
  rw [← stat_iff_trail hkeeps hp hstat, isFile_iff]
  constructor
  · rintro ⟨l', content', executable', hstat'⟩
    -- What is found now was found before.
    rwa [← hstat, stat_of_keeps hkeeps hp hstat']
  · intro hstat'
    exact ⟨l, content, executable, hstat'⟩

theorem exists_trailFrom_eq (fs : FileSystem) (links : Nat) (d : Location) (names : List Text) :
    ∃ onTrail, fs.trailFrom links d names = fs.descendTrail onTrail d names := by
  cases links with
  | zero => exact ⟨_, rfl⟩
  | succ links => exact ⟨_, rfl⟩

/-- A path that leads **where it says** passes only locations above that place. -/
theorem prefix_of_mem_trail (hnested : fs.Nested) (hp : p.IsProper)
    (h : fs.stat p = .ok (p.parts, e)) (hlink : ∀ target, e ≠ .link target)
    (hk : k ∈ fs.trail p) : k <+: p.parts := by
  obtain ⟨onTrail, htrail⟩ := exists_trailFrom_eq fs linkLimit [] p.parts
  rw [trail, if_pos hp.absolute] at hk
  have hup : Path.up ∉ p.parts := fun hup ↦ (hp.names _ hup).2 rfl
  exact prefix_of_mem_descendTrail (d := []) hnested hup (stat_eq_ok_iff.1 h).2 hlink hk

/-! ### Removing what is on the way -/

/-- What stands at one path is **on the way** to another: looking up the second one passes the
location of the first or one below it. -/
def OnWay (fs : FileSystem) (out p : Path) : Prop :=
  ∃ r, fs.locate false out = .ok r ∧ ∃ k ∈ fs.trail p, k ≠ [] ∧ r <+: k

theorem entry?_eraseTree_eq_none_iff {r : Location} :
    entry? (fs.eraseTree r) k = none ↔ k ≠ [] ∧ r <+: k ∨ fs.entry? k = none := by
  by_cases hk : k = []
  · simp [hk]
  · by_cases hr : r = []
    · have hempty : (fs.eraseTree r).entries = [] := by simp [hr, eraseTree]
      rw [entry?_of_ne_nil hk, hempty]
      simp [hk, hr]
    · rw [entry?_eraseTree hr]
      by_cases hbelow : r <+: k <;> simp [hk, hbelow]

end FileSystem

open FileSystem

variable {fs cleared : FileSystem} {out start f : Path} {hint : Text} {mechanism : Mechanism}
  {specifier : Option Text}

/-- Resetting an output directory leaves a file unless the directory is there and **on the way**. -/
theorem isFile_of_resetOutput_iff (hfs : fs.IsTree) (hf : f.isAbsolute = true)
    (hfile : fs.isFile f = true) (h : (resetOutput out start).Returns fs () cleared) :
    cleared.isFile f = true ↔ ¬ (fs.exists_ out = true ∧ fs.OnWay out f) := by
  obtain ⟨-, ⟨hexists, rfl⟩ | ⟨hexists, r, hlocate, hremoved⟩⟩ := resetOutput_cases h
  · exact iff_of_true hfile fun hway ↦ Bool.false_ne_true (hexists.symm.trans hway.1)
  · have hkeeps : cleared.Keeps fs := by
      rcases hremoved with rfl | ⟨-, rfl⟩
      · exact keeps_of_filter (fun k ↦ !r.isPrefixOf k) rfl
      · exact keeps_of_filter (· ≠ r) rfl
    have hnone (k : Location) :
        cleared.entry? k = none ↔ k ≠ [] ∧ r <+: k ∨ fs.entry? k = none := by
      rcases hremoved with rfl | ⟨hr, rfl⟩
      · exact entry?_eraseTree_eq_none_iff
      · rw [hfs.nested.erase_eq_eraseTree hr]
        exact entry?_eraseTree_eq_none_iff
    have hthere := (isFile_iff_trail (.refl fs) hf hfile).1 hfile
    rw [isFile_iff_trail hkeeps hf hfile]
    constructor
    · rintro hall ⟨-, r', hlocate', k, hk, hne, hbelow⟩
      obtain rfl := Except.ok.inj (hlocate.symm.trans hlocate')
      exact hall k hk ((hnone k).2 (.inl ⟨hne, hbelow⟩))
    · intro hway k hk hgone
      rcases (hnone k).1 hgone with ⟨hne, hbelow⟩ | hgone
      · exact hway ⟨hexists, r, hlocate, k, hk, hne, hbelow⟩
      · exact hthere k hk hgone

/-- What a path stands for lies below another path only if the first path does, or if it **is** the
other path. -/
theorem eq_or_isBelow_of_resolve (h : fs.resolve start hint mechanism specifier = .ok f)
    (hbelow : f.isBelow out = true) : f = out ∨ start.isBelow out = true := by
  rcases resolve_cases h with ⟨-, rfl⟩ | ⟨names, indices, choice, -, -, -, rfl⟩
  · exact .inr hbelow
  · by_cases heq : choicePath start choice = out
    · exact .inl heq
    · refine .inr ?_
      cases choice with
      | sibling name =>
        obtain ⟨hanchor, hparts⟩ := Path.isBelow_iff.1 (Path.child_isBelow_iff.1 ⟨hbelow, heq⟩)
        exact Path.isBelow_iff.2 ⟨hanchor, hparts.trans (List.dropLast_prefix _)⟩
      | index name => exact Path.child_isBelow_iff.1 ⟨hbelow, heq⟩

/-- **When the file of the entry is left.** Let the path of an entry stand for a file, and let the
output directory be reset. The file is left exactly unless the output directory is there and on the
way to the file. If both paths start at the same root and lead where they say, and the output
directory is not the file itself, then the file is left. -/
theorem resetOutput_keeps_iff (hfs : fs.IsTree) {entry output : Text}
    (hresolve : fs.resolve (Path.absolute fs.here (Path.ofText entry)) hint mechanism specifier
      = .ok f)
    (hreset : (resetOutput (Path.absolute fs.here (Path.ofText output))
      (Path.absolute fs.here (Path.ofText entry))).Returns fs () cleared) :
    let out := Path.absolute fs.here (Path.ofText output)
    fs.isFile f = true ∧
    (cleared.isFile f = true ↔ ¬ (fs.exists_ out = true ∧ fs.OnWay out f)) ∧
    (out.anchor = (Path.absolute fs.here (Path.ofText entry)).anchor →
      fs.locate true f = .ok f.parts → fs.locate false out = .ok out.parts → f ≠ out →
      cleared.isFile f = true) := by
  intro out
  have hstart := Path.isProper_absolute hfs.isProper_here entry
  have hf := hfs.toWellNamed.isProper_resolve hstart hresolve
  have hfile := isFile_resolve hresolve
  have hiff := isFile_of_resetOutput_iff hfs hf.absolute hfile hreset
  refine ⟨hfile, hiff, fun hanchor hsays hsays' hne ↦ hiff.2 ?_⟩
  rintro ⟨-, r, hlocate, k, hk, -, hbelow⟩
  obtain rfl := Except.ok.inj (hlocate.symm.trans hsays')
  obtain ⟨l, content, executable, hstat⟩ := isFile_iff.1 hfile
  obtain rfl := Except.ok.inj ((stat_eq_ok_iff.1 hstat).1.symm.trans hsays)
  -- Everything on the way to the file is spelled like a part of its path.
  have hprefix := hbelow.trans (prefix_of_mem_trail hfs.nested hf hstat (by simp) hk)
  have hfbelow : f.isBelow out = true :=
    Path.isBelow_iff.2 ⟨(anchor_resolve hresolve).trans hanchor.symm, hprefix⟩
  rcases eq_or_isBelow_of_resolve hresolve hfbelow with heq | hstartBelow
  · exact hne heq
  · exact Bool.false_ne_true ((resetOutput_cases hreset).1.symm.trans hstartBelow)

/-- A script in a directory, and a link to the directory. -/
def linked : FileSystem where
  entries := [
    (["real"], .directory),
    (["real", "main.js"], .file (Utf8.encodeChars "console.log(1)".toList) false),
    (["l"], .link "real")]
  cwd := []

theorem isTree_linked : linked.IsTree :=
  ⟨⟨by decide, by decide⟩, by decide, nested_of_entries (by decide)⟩

theorem resolve_linked :
    linked.resolve (Path.absolute linked.here (Path.ofText "l/main.js")) ".js" .entry none
      = .ok ⟨.root, ["l", "main.js"]⟩ :=
  eq_ok_of_succeedsWith (by decide)

theorem reset_linked :
    (resetOutput (Path.absolute linked.here (Path.ofText "real"))
      (Path.absolute linked.here (Path.ofText "l/main.js"))).Returns linked ()
        (linked.eraseTree ["real"]) := rfl

/-- The directory is **on the way** to the script that is named by the link, so that removing it
loses the script. -/
theorem resetOutput_linked :
    linked.OnWay ⟨.root, ["real"]⟩ ⟨.root, ["l", "main.js"]⟩ ∧
      (linked.eraseTree ["real"]).isFile ⟨.root, ["l", "main.js"]⟩ = false := by
  obtain ⟨-, hiff, -⟩ := resetOutput_keeps_iff isTree_linked resolve_linked reset_linked
  have hlost : (linked.eraseTree ["real"]).isFile ⟨.root, ["l", "main.js"]⟩ = false := by
    decide
  exact ⟨(not_not.1 (mt hiff.2 (Bool.eq_false_iff.1 hlost))).2, hlost⟩

/-- A build may **delete** the file of its own entry. -/
theorem resetOutput_loses_entry : ∃ f cleared,
    linked.resolve (Path.absolute linked.here (Path.ofText "l/main.js")) ".js" .entry none = .ok f ∧
      linked.isFile f = true ∧
      (resetOutput (Path.absolute linked.here (Path.ofText "real"))
        (Path.absolute linked.here (Path.ofText "l/main.js"))).Returns linked () cleared ∧
      cleared.isFile f = false :=
  ⟨_, _, resolve_linked, by decide, reset_linked, by decide⟩

end ScriptTree
