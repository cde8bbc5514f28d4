import ScriptTree.FileSystem.Update
import ScriptTree.Proofs.Explore
import ScriptTree.Proofs.Outcome

/-!
# File systems as trees

A file system is a list of entries at locations, and any list will do to look things up. The file
systems that a program meets are **trees**: what stands somewhere stands in a directory, and at
every location there is one thing. Changes keep this, and what is gone with a directory is gone
below it.

Looking up a path follows symbolic links, so the location of a path need not be spelled like the
path. Three facts are enough to reason about lookups all the same. A lookup that succeeds still
succeeds, at the same location, when more entries appear (`locate_of_keeps`); a path that leads
anywhere leads through directories (`isDirectory_of_append`); and beyond a directory the lookup goes
on from its location (`exists_locate_append`), where it is plain descent as long as there are no
links (`descend_of_entry`, `descend_of_none`).

## Main results

* `FileSystem.locate_of_keeps`: what was found is still found.
* `FileSystem.isDirectory_of_append`: a path leads through directories.
* `FileSystem.makeParents_of_blocked`: no directories are made below what is none.
-/

namespace ScriptTree.FileSystem

open List
variable {fs fs' : FileSystem} {l d : Location} {e : Entry} {p : Path} {follow : Bool}

/-! ### Entries after a change -/

@[simp] theorem entry?_nil (fs : FileSystem) : fs.entry? [] = some .directory := rfl

theorem entry?_of_ne_nil (h : l ≠ []) : fs.entry? l = fs.entries.lookup l := if_neg h

theorem lookup_map_put (entries : List (Location × Entry)) (l l' : Location) (e : Entry) :
    (entries.map fun p ↦ if p.1 = l then (l, e) else p).lookup l'
      = if l' = l then (entries.lookup l).map fun _ ↦ e else entries.lookup l' := by
  induction entries with
  | nil => simp
  | cons p entries ih =>
    obtain ⟨k, v⟩ := p
    by_cases hk : k = l
    · subst hk
      by_cases hl' : l' = k
      · simp [hl']
      · have hne : (l' == k) = false := by simpa using hl'
        simp [lookup_cons, hne, ih, hl']
    · have hkl : (l == k) = false := by simpa using Ne.symm hk
      by_cases hl' : l' = k
      · subst hl'
        simp [hk]
      · have hne : (l' == k) = false := by simpa using hl'
        simp [hk, lookup_cons, hne, hkl, ih]

theorem any_eq_isSome_lookup (entries : List (Location × Entry)) (l : Location) :
    entries.any (·.1 = l) = (entries.lookup l).isSome := by
  induction entries with
  | nil => rfl
  | cons p entries ih =>
    obtain ⟨k, v⟩ := p
    by_cases hk : k = l
    · simp [hk]
    · have hne : (l == k) = false := by simpa using Ne.symm hk
      simp [lookup_cons, hk, hne, ih]

/-- After something is **put** at a location, it stands there, and everything else is as before. -/
theorem entry?_put (hl : l ≠ []) (e : Entry) (l' : Location) :
    entry? (fs.put l e) l' = if l' = l then some e else fs.entry? l' := by
  by_cases hl' : l' = []
  · rw [hl', entry?_nil, if_neg (Ne.symm hl), entry?_nil]
  · rw [entry?_of_ne_nil hl', entry?_of_ne_nil hl', put, any_eq_isSome_lookup]
    cases hlookup : fs.entries.lookup l with
    | some old => simp [lookup_map_put, hlookup]
    | none =>
      by_cases heq : l' = l
      · simp [lookup_append, heq, hlookup]
      · have hne : (l' == l) = false := by simpa using heq
        simp [lookup_append, heq, lookup_cons, hne]

theorem lookup_filter (entries : List (Location × Entry)) (keep : Location → Bool) (l : Location) :
    (entries.filter fun p ↦ keep p.1).lookup l = if keep l then entries.lookup l else none := by
  induction entries with
  | nil => simp
  | cons p entries ih =>
    obtain ⟨k, v⟩ := p
    by_cases hl : l = k
    · subst hl
      cases hkeep : keep l <;> simp [hkeep, ih]
    · have hne : (l == k) = false := by simpa using hl
      cases hkeep : keep k <;> simp [lookup_cons, hkeep, hne, ih]

/-- What is **erased** is gone. -/
theorem entry?_erase (hl : l ≠ []) (l' : Location) :
    entry? (fs.erase l) l' = if l' = l then none else fs.entry? l' := by
  by_cases hl' : l' = []
  · rw [hl', entry?_nil, if_neg (Ne.symm hl), entry?_nil]
  · rw [entry?_of_ne_nil hl', entry?_of_ne_nil hl', erase, lookup_filter _ (· ≠ l)]
    by_cases heq : l' = l <;> simp [heq]

/-- What is erased with a tree is gone, and so is all **below** it. -/
theorem entry?_eraseTree (hl : l ≠ []) (l' : Location) :
    entry? (fs.eraseTree l) l' = if l <+: l' then none else fs.entry? l' := by
  by_cases hl' : l' = []
  · have hnot : ¬ l <+: [] := fun h ↦ hl (prefix_nil.1 h)
    rw [hl', entry?_nil, if_neg hnot, entry?_nil]
  · rw [entry?_of_ne_nil hl', entry?_of_ne_nil hl', eraseTree,
      lookup_filter _ (fun k ↦ !l.isPrefixOf k)]
    by_cases hbelow : l <+: l' <;> simp [hbelow]

/-- What is put below a location does **not show** without it. -/
theorem eraseTree_put {r : Location} (h : r <+: l) (fs : FileSystem) (e : Entry) :
    (fs.put l e).eraseTree r = fs.eraseTree r := by
  have hmap (entries : List (Location × Entry)) :
      (entries.map fun p ↦ if p.1 = l then (l, e) else p).filter (fun p ↦ !r.isPrefixOf p.1)
        = entries.filter fun p ↦ !r.isPrefixOf p.1 := by
    induction entries with
    | nil => rfl
    | cons p entries ih =>
      by_cases hp : p.1 = l
      · simpa [hp, h] using ih
      · simp [hp, filter_cons, ih]
  rw [put]
  split
  · simp [eraseTree, hmap]
  · simp [eraseTree, h]

/-! ### Trees -/

/-- Whatever stands somewhere stands **in a directory**. -/
def Nested (fs : FileSystem) : Prop :=
  ∀ l name e, fs.entry? (l ++ [name]) = some e → fs.entry? l = some .directory

/-- A file system that is a **tree**: its names are proper, there is one entry at a location, and
entries stand in directories. -/
structure IsTree (fs : FileSystem) : Prop extends WellNamed fs where
  nodup : (fs.entries.map (·.1)).Nodup
  nested : fs.Nested

/-- It is enough to look at the **entries** that there are. -/
theorem nested_of_entries (h : ∀ p ∈ fs.entries, fs.entry? p.1.dropLast = some .directory) :
    fs.Nested := by
  intro l name e he
  rw [entry?_of_ne_nil (by simp)] at he
  have hdir := h _ (mem_of_lookup he)
  rwa [dropLast_concat] at hdir

/-- Above everything there are **directories**. -/
theorem Nested.directory_of_prefix (h : fs.Nested) {names : List Text} (hnames : names ≠ [])
    (he : fs.entry? (l ++ names) = some e) : fs.entry? l = some .directory := by
  induction names using List.reverseRecOn generalizing e with
  | nil => exact absurd rfl hnames
  | append_singleton names name ih =>
    rw [← append_assoc] at he
    have hdir := h _ _ _ he
    by_cases hnil : names = []
    · rwa [hnil, append_nil] at hdir
    · exact ih hnil hdir

/-- Where nothing stands, nothing stands **below**. -/
theorem Nested.entry?_eq_none (h : fs.Nested) (hl : fs.entry? l = none) (names : List Text) :
    fs.entry? (l ++ names) = none := by
  by_cases hnames : names = []
  · rwa [hnames, append_nil]
  · by_contra hsome
    obtain ⟨e, he⟩ := Option.ne_none_iff_exists'.1 hsome
    rw [h.directory_of_prefix hnames he] at hl
    cases hl

theorem nodup_put (h : (fs.entries.map (·.1)).Nodup) (l : Location) (e : Entry) :
    ((fs.put l e).entries.map (·.1)).Nodup := by
  rw [put]
  split
  · have hkeys : (fs.entries.map fun p ↦ if p.1 = l then (l, e) else p).map (·.1)
        = fs.entries.map (·.1) := by
      rw [map_map]
      refine map_congr_left fun p _ ↦ ?_
      by_cases hp : p.1 = l <;> simp [hp]
    rwa [hkeys]
  · next hnew =>
    rw [map_append, map_singleton, ← concat_eq_append]
    refine (nodup_concat _ _).2 ⟨fun hmem ↦ hnew ?_, h⟩
    obtain ⟨p, hp, heq⟩ := mem_map.1 hmem
    exact any_eq_true.2 ⟨p, hp, by simpa using heq⟩

/-- Something new in a directory keeps a tree **nested**. -/
theorem Nested.put (h : fs.Nested) {name : Text} (hl : fs.entry? l = some .directory)
    (hnew : ∀ e, fs.entry? (l ++ [name]) = some e → e ≠ .directory) :
    (fs.put (l ++ [name]) e).Nested := by
  intro d other e' he'
  have hne : l ++ [name] ≠ [] := by simp
  rw [entry?_put hne] at he' ⊢
  by_cases hd : d = l ++ [name]
  · -- Nothing stood below the new entry.
    subst hd
    rw [if_neg (by simp)] at he'
    have hdir := h _ _ _ he'
    exact absurd rfl (hnew _ hdir)
  · rw [if_neg hd]
    split at he'
    · next heq =>
      obtain ⟨rfl, -⟩ := append_inj' heq rfl
      exact hl
    · exact h d other e' he'

theorem isSome_entry?_of_mem {item : Location × Entry} (h : item ∈ fs.entries) :
    (fs.entry? item.1).isSome := by
  by_cases hl : item.1 = []
  · rw [hl]
    rfl
  · rw [entry?_of_ne_nil hl, ← any_eq_isSome_lookup]
    exact any_eq_true.2 ⟨item, h, by simp⟩

/-- Where nothing stands, **nothing** is erased. -/
theorem Nested.eraseTree_eq_self (h : fs.Nested) (hl : fs.entry? l = none) :
    fs.eraseTree l = fs := by
  show ({ fs with entries := _ } : FileSystem) = fs
  congr 1
  refine filter_eq_self.2 fun item hitem ↦ ?_
  by_contra hbelow
  obtain ⟨names, hnames⟩ : l <+: item.1 := by simpa using hbelow
  have hsome := isSome_entry?_of_mem hitem
  rw [← hnames, h.entry?_eq_none hl] at hsome
  exact Bool.false_ne_true hsome

/-- What is no directory is erased **by itself**. -/
theorem Nested.erase_eq_eraseTree (h : fs.Nested) (hl : fs.entry? l ≠ some .directory) :
    fs.erase l = fs.eraseTree l := by
  show ({ fs with entries := _ } : FileSystem) = { fs with entries := _ }
  congr 1
  refine filter_congr fun item hitem ↦ ?_
  rw [Bool.eq_iff_iff]
  simp only [decide_eq_true_eq, Bool.not_eq_true', ← Bool.not_eq_true, List.isPrefixOf_iff_prefix]
  refine not_congr ⟨fun heq ↦ heq ▸ prefix_rfl, ?_⟩
  rintro ⟨names, hnames⟩
  by_cases hnil : names = []
  · rw [← hnames, hnil, append_nil]
  · obtain ⟨e, he⟩ := Option.isSome_iff_exists.1 (isSome_entry?_of_mem hitem)
    rw [← hnames] at he
    exact absurd (h.directory_of_prefix hnil he) hl

/-! ### Lookups -/

/-- What happens at a link when so many more links may be **followed**. -/
def followLink (fs : FileSystem) (follow : Bool) : Nat → Location → List Text →
    Except OsCause Location
  | 0, _, _ => .error .tooManyLinks
  | links + 1, d, names => fs.locateFrom follow links d names

theorem locateFrom_eq (fs : FileSystem) (follow : Bool) (links : Nat) (d : Location)
    (names : List Text) :
    fs.locateFrom follow links d names
      = fs.descend follow (fs.followLink follow links) d names := by
  cases links <;> rfl

theorem followLink_zero_ne {names : List Text} : fs.followLink follow 0 d names ≠ .ok l := by
  simp [followLink]

theorem locate_of_isAbsolute (hp : p.isAbsolute = true) (fs : FileSystem) (follow : Bool) :
    fs.locate follow p = fs.locateFrom follow linkLimit [] p.parts := by
  rw [locate, if_pos hp]

section Descend

variable {onLink onLink' : Location → List Text → Except OsCause Location} {names : List Text}
  {name : Text}

/-- One step of a descent, by what is at its start and at the name below it. -/
alias descend_cons := descend.eq_2

theorem descend_up (hd : fs.entry? d = some .directory) :
    fs.descend follow onLink d (Path.up :: names) = fs.descend follow onLink d.dropLast names := by
  rw [descend_cons, hd]
  rfl

theorem descend_none (hd : fs.entry? d = some .directory) (hname : name ≠ Path.up)
    (hnext : fs.entry? (d ++ [name]) = none) :
    fs.descend follow onLink d (name :: names) = .error .notFound := by
  rw [descend_cons, hd]
  simp [hname, hnext]

theorem descend_link {target : Text} (hd : fs.entry? d = some .directory) (hname : name ≠ Path.up)
    (hnext : fs.entry? (d ++ [name]) = some (.link target)) :
    fs.descend follow onLink d (name :: names)
      = if names = [] ∧ !follow then .ok (d ++ [name])
        else onLink (if (Path.ofText target).isAbsolute then [] else d)
          ((Path.ofText target).parts ++ names) := by
  rw [descend_cons, hd]
  simp [hname, hnext]

theorem descend_entry (hd : fs.entry? d = some .directory) (hname : name ≠ Path.up)
    (hnext : fs.entry? (d ++ [name]) = some e) (he : ∀ target, e ≠ .link target) :
    fs.descend follow onLink d (name :: names)
      = fs.descend follow onLink (d ++ [name]) names := by
  rw [descend_cons, hd]
  cases e with
  | file => simp [hname, hnext]
  | directory => simp [hname, hnext]
  | link target => exact absurd rfl (he target)

/-- Only a directory leads **anywhere**. -/
theorem directory_of_descend (h : fs.descend follow onLink d (name :: names) = .ok l) :
    fs.entry? d = some .directory := by
  rw [descend_cons] at h
  cases hd : fs.entry? d with
  | none => simp [hd] at h
  | some e =>
    cases e with
    | file content executable => simp [hd] at h
    | directory => rfl
    | link target => simp [hd] at h

/-- The ways in which a descent goes **on**: up, to a link, or to a file or directory. -/
theorem descend_cases (h : fs.descend follow onLink d (name :: names) = .ok l) :
    fs.entry? d = some .directory ∧
      (name = Path.up ∨
        name ≠ Path.up ∧ ((∃ target, fs.entry? (d ++ [name]) = some (.link target)) ∨
          ∃ e, fs.entry? (d ++ [name]) = some e ∧ ∀ target, e ≠ .link target)) := by
  have hd := directory_of_descend h
  refine ⟨hd, ?_⟩
  by_cases hname : name = Path.up
  · exact .inl hname
  · refine .inr ⟨hname, ?_⟩
    cases hnext : fs.entry? (d ++ [name]) with
    | none =>
      rw [descend_none hd hname hnext] at h
      cases h
    | some e =>
      cases e with
      | file content executable => exact .inr ⟨_, rfl, fun _ ↦ by simp⟩
      | directory => exact .inr ⟨_, rfl, fun _ ↦ by simp⟩
      | link target => exact .inl ⟨target, rfl⟩

/-- A descent that leads through directories leads through the **first part** of its names. -/
theorem exists_of_descend_append {before : List Text} (hnames : names ≠ [])
    (honLink : ∀ d' before', onLink d' (before' ++ names) = .ok l →
      ∃ b, onLink' d' before' = .ok b ∧ fs.entry? b = some .directory)
    (h : fs.descend follow onLink d (before ++ names) = .ok l) :
    ∃ b, fs.descend true onLink' d before = .ok b ∧ fs.entry? b = some .directory := by
  induction before generalizing d with
  | nil =>
    obtain ⟨name, rest, rfl⟩ := exists_cons_of_ne_nil hnames
    exact ⟨d, rfl, directory_of_descend h⟩
  | cons first before ih =>
    rw [cons_append] at h
    obtain ⟨hd, rfl | ⟨hfirst, ⟨target, hnext⟩ | ⟨e, hnext, he⟩⟩⟩ := descend_cases h
    · rw [descend_up hd] at h ⊢
      exact ih h
    · rw [descend_link hd hfirst hnext, if_neg (by simp [hnames]), ← append_assoc] at h
      rw [descend_link hd hfirst hnext, if_neg (by simp)]
      exact honLink _ _ h
    · rw [descend_entry hd hfirst hnext he] at h ⊢
      exact ih h

/-- More entries **keep** what a descent has found, also if the last link is followed from now on
and that is no link. -/
theorem descend_of_keeps {follow' : Bool}
    (hkeeps : ∀ l e, fs.entry? l = some e → fs'.entry? l = some e)
    (hfollow : follow' = follow ∨ follow' = true ∧ ∀ target, fs.entry? l ≠ some (.link target))
    (honLink : ∀ d' names', onLink d' names' = .ok l → onLink' d' names' = .ok l)
    (h : fs.descend follow onLink d names = .ok l) :
    fs'.descend follow' onLink' d names = .ok l := by
  induction names generalizing d with
  | nil => exact h
  | cons name names ih =>
    obtain ⟨hd, rfl | ⟨hname, ⟨target, hnext⟩ | ⟨e, hnext, he⟩⟩⟩ := descend_cases h
    · rw [descend_up hd] at h
      rw [descend_up (hkeeps _ _ hd)]
      exact ih h
    · rw [descend_link hd hname hnext] at h
      rw [descend_link (hkeeps _ _ hd) hname (hkeeps _ _ hnext)]
      split at h
      · next hlast =>
        cases h
        obtain rfl | ⟨-, hl⟩ := hfollow
        · rw [if_pos hlast]
        · exact absurd hnext (hl target)
      · next hlast =>
        rw [if_neg (by rcases hfollow with rfl | ⟨rfl, -⟩; exacts [hlast, by simp])]
        exact honLink _ _ h
    · rw [descend_entry hd hname hnext he] at h
      rw [descend_entry (hkeeps _ _ hd) hname (hkeeps _ _ hnext) he]
      exact ih h

/-- What is found when the last link is followed too is found **without that**. -/
theorem exists_descend_false
    (honLink : ∀ d' names', onLink d' names' = .ok l →
      ∃ l', onLink' d' names' = .ok l' ∧ (fs.entry? l').isSome)
    (hl : (fs.entry? l).isSome) (h : fs.descend true onLink d names = .ok l) :
    ∃ l', fs.descend false onLink' d names = .ok l' ∧ (fs.entry? l').isSome := by
  induction names generalizing d with
  | nil =>
    obtain rfl := Except.ok.inj h
    exact ⟨d, rfl, hl⟩
  | cons name names ih =>
    obtain ⟨hd, rfl | ⟨hname, ⟨target, hnext⟩ | ⟨e, hnext, he⟩⟩⟩ := descend_cases h
    · rw [descend_up hd] at h ⊢
      exact ih h
    · rw [descend_link hd hname hnext, if_neg (by simp)] at h
      rw [descend_link hd hname hnext]
      split
      · exact ⟨_, rfl, by rw [hnext]; rfl⟩
      · exact honLink _ _ h
    · rw [descend_entry hd hname hnext he] at h ⊢
      exact ih h

/-- Where there are no links, a descent leads **straight** to what is there. -/
theorem descend_of_entry (hnested : fs.Nested) (hup : Path.up ∉ names)
    (hlinks : ∀ before after target, before ≠ [] → names = before ++ after →
      fs.entry? (d ++ before) ≠ some (.link target))
    (he : fs.entry? (d ++ names) = some e) :
    fs.descend follow onLink d names = .ok (d ++ names) := by
  induction names generalizing d with
  | nil =>
    rw [append_nil]
    rfl
  | cons name names ih =>
    have hd := hnested.directory_of_prefix (cons_ne_nil name names) he
    rw [append_cons] at he
    obtain ⟨e', hnext⟩ : ∃ e', fs.entry? (d ++ [name]) = some e' := by
      by_cases hnames : names = []
      · exact ⟨e, by rwa [hnames, append_nil] at he⟩
      · exact ⟨_, hnested.directory_of_prefix hnames he⟩
    have hlink : ∀ target, e' ≠ .link target := by
      rintro target rfl
      exact hlinks [name] names target (by simp) rfl hnext
    have hname : name ≠ Path.up := fun h ↦ hup (h ▸ mem_cons_self)
    rw [descend_entry hd hname hnext hlink, append_cons d name names]
    refine ih (fun h ↦ hup (mem_cons_of_mem _ h)) (fun before after target hbefore heq ↦ ?_) he
    rw [append_assoc]
    exact hlinks (name :: before) after target (by simp) (by rw [heq]; rfl)

/-- Where there are no links and nothing is there, a descent **fails**: something is missing on the
way, or a file is in the way. -/
theorem descend_of_none (hd : fs.entry? d = some .directory) (hup : Path.up ∉ names)
    (hlinks : ∀ before after target, before ≠ [] → names = before ++ after →
      fs.entry? (d ++ before) ≠ some (.link target))
    (hnone : fs.entry? (d ++ names) = none) :
    fs.descend follow onLink d names = .error .notFound ∨
      fs.descend follow onLink d names = .error .notDirectory ∧
        ∃ before after content executable, names = before ++ after ∧ before ≠ [] ∧
          fs.entry? (d ++ before) = some (.file content executable) := by
  induction names generalizing d with
  | nil =>
    rw [append_nil, hd] at hnone
    cases hnone
  | cons name names ih =>
    have hname : name ≠ Path.up := fun h ↦ hup (h ▸ mem_cons_self)
    rw [append_cons] at hnone
    cases hnext : fs.entry? (d ++ [name]) with
    | none => exact .inl (descend_none hd hname hnext)
    | some e =>
      cases e with
      | link target => exact absurd hnext (hlinks [name] names target (by simp) rfl)
      | file content executable =>
        rw [descend_entry hd hname hnext (by simp)]
        cases names with
        | nil =>
          rw [append_nil, hnext] at hnone
          cases hnone
        | cons second names =>
          refine .inr ⟨by rw [descend, hnext], [name], second :: names, content, executable, rfl,
            by simp, hnext⟩
      | directory =>
        rw [descend_entry hd hname hnext (by simp)]
        refine (ih hnext (fun h ↦ hup (mem_cons_of_mem _ h))
          (fun before after target hbefore heq ↦ ?_) hnone).imp id fun h ↦ ?_
        · rw [append_assoc]
          exact hlinks (name :: before) after target (by simp) (by rw [heq]; rfl)
        · obtain ⟨hfail, before, after, content, executable, heq, -, hfile⟩ := h
          refine ⟨hfail, name :: before, after, content, executable, by rw [heq]; rfl, by simp, ?_⟩
          rwa [append_cons]

end Descend

/-! ### Found locations -/

/-- A file system **keeps** another: everything that was there is there unchanged. -/
def Keeps (fs fs' : FileSystem) : Prop := ∀ l e, fs.entry? l = some e → fs'.entry? l = some e

theorem Keeps.refl (fs : FileSystem) : fs.Keeps fs := fun _ _ h ↦ h

theorem Keeps.trans {fs'' : FileSystem} (h : fs.Keeps fs') (h' : fs'.Keeps fs'') : fs.Keeps fs'' :=
  fun l e he ↦ h' l e (h l e he)

variable {names : List Text}

theorem locateFrom_of_keeps {follow' : Bool} (hkeeps : fs.Keeps fs')
    (hfollow : follow' = follow ∨ follow' = true ∧ ∀ target, fs.entry? l ≠ some (.link target))
    {links : Nat} (h : fs.locateFrom follow links d names = .ok l) :
    fs'.locateFrom follow' links d names = .ok l := by
  induction links generalizing d names with
  | zero =>
    rw [locateFrom_eq] at h ⊢
    exact descend_of_keeps hkeeps hfollow (fun _ _ h ↦ absurd h followLink_zero_ne) h
  | succ links ih => exact descend_of_keeps hkeeps hfollow (fun _ _ h ↦ ih h) h

/-- What was found is **still found** where nothing has changed. -/
theorem locate_of_keeps (hkeeps : fs.Keeps fs') (hp : p.isAbsolute = true)
    (h : fs.locate follow p = .ok l) : fs'.locate follow p = .ok l := by
  rw [locate_of_isAbsolute hp] at h ⊢
  exact locateFrom_of_keeps hkeeps (.inl rfl) h

theorem exists_locateFrom_false {links : Nat} (hl : (fs.entry? l).isSome)
    (h : fs.locateFrom true links d names = .ok l) :
    ∃ l', fs.locateFrom false links d names = .ok l' ∧ (fs.entry? l').isSome := by
  induction links generalizing d names with
  | zero =>
    rw [locateFrom_eq] at h ⊢
    exact exists_descend_false (fun _ _ h ↦ absurd h followLink_zero_ne) hl h
  | succ links ih => exact exists_descend_false (fun _ _ h ↦ ih h) hl h

theorem exists_of_locateFrom_append {links : Nat} {before : List Text} (hnames : names ≠ [])
    (h : fs.locateFrom follow links d (before ++ names) = .ok l) :
    ∃ b, fs.locateFrom true links d before = .ok b ∧ fs.entry? b = some .directory := by
  induction links generalizing d before with
  | zero =>
    rw [locateFrom_eq] at h ⊢
    exact exists_of_descend_append hnames (fun _ _ h ↦ absurd h followLink_zero_ne) h
  | succ links ih => exact exists_of_descend_append hnames (fun _ _ h ↦ ih h) h

/-- Beyond a location that was found, a lookup **goes on from there**. -/
theorem exists_locateFrom_append {links : Nat} {before : List Text} {b : Location}
    (h : fs.locateFrom true links d before = .ok b) :
    ∃ left, ∀ follow names, names ≠ [] →
      fs.locateFrom follow links d (before ++ names) = fs.locateFrom follow left b names := by
  induction links using Nat.strong_induction_on generalizing d before with
  | _ links ih =>
    simp only [locateFrom_eq fs _ links] at h ⊢
    -- The names before are taken one by one; at a link fewer links are left.
    induction before generalizing d with
    | nil =>
      cases h
      exact ⟨links, fun follow names _ ↦ (locateFrom_eq ..).symm⟩
    | cons name before ihbefore =>
      obtain ⟨hd, rfl | ⟨hname, ⟨target, hnext⟩ | ⟨e, hnext, he⟩⟩⟩ := descend_cases h
      · rw [descend_up hd] at h
        obtain ⟨left, hleft⟩ := ihbefore h
        refine ⟨left, fun follow names hnames ↦ ?_⟩
        rw [cons_append, descend_up hd, hleft follow names hnames]
      · rw [descend_link hd hname hnext, if_neg (by simp)] at h
        cases links with
        | zero => exact absurd h followLink_zero_ne
        | succ links =>
          obtain ⟨left, hleft⟩ := ih links (Nat.lt_succ_self links) h
          refine ⟨left, fun follow names hnames ↦ ?_⟩
          rw [cons_append, descend_link hd hname hnext, if_neg (by simp [hnames]),
            ← append_assoc]
          exact hleft follow names hnames
      · rw [descend_entry hd hname hnext he] at h
        obtain ⟨left, hleft⟩ := ihbefore h
        refine ⟨left, fun follow names hnames ↦ ?_⟩
        rw [cons_append, descend_entry hd hname hnext he, hleft follow names hnames]

/-! ### Paths -/

theorem stat_eq_ok_iff :
    fs.stat p = .ok (l, e) ↔ fs.locate true p = .ok l ∧ fs.entry? l = some e := by
  rw [stat, bind_eq_ok_iff]
  constructor
  · rintro ⟨l', hl', h⟩
    cases he : fs.entry? l' with
    | none => simp [he] at h
    | some e' =>
      simp only [he, Except.ok.injEq] at h
      obtain ⟨rfl, rfl⟩ := h
      exact ⟨hl', he⟩
  · rintro ⟨hl, he⟩
    exact ⟨l, hl, by rw [he]⟩

theorem isDirectory_iff : fs.isDirectory p = true ↔ ∃ l, fs.stat p = .ok (l, .directory) := by
  rw [isDirectory]
  split
  · next l hstat => simpa using ⟨l, hstat⟩
  · next hnot =>
    refine iff_of_false (by simp) ?_
    rintro ⟨l, hstat⟩
    exact hnot l hstat

theorem exists_iff : fs.exists_ p = true ↔ ∃ l e, fs.stat p = .ok (l, e) := by
  rw [exists_]
  split
  · next found hstat => simpa using ⟨found.1, found.2, hstat⟩
  · next cause hstat => simp [hstat]

theorem isFile_iff :
    fs.isFile p = true ↔ ∃ l content executable, fs.stat p = .ok (l, .file content executable) := by
  rw [isFile]
  split
  · next l content executable hstat => exact iff_of_true rfl ⟨l, content, executable, hstat⟩
  · next hnot =>
    refine iff_of_false (by simp) ?_
    rintro ⟨l, content, executable, hstat⟩
    exact hnot l content executable hstat

theorem isDirectory_eq_false_of_isFile (h : fs.isFile p = true) : fs.isDirectory p = false := by
  obtain ⟨l, content, executable, hstat⟩ := isFile_iff.1 h
  rw [isDirectory, hstat]

/-- The **top** is a directory. -/
theorem isDirectory_top {a : Anchor} (ha : (⟨a, []⟩ : Path).isAbsolute = true) (fs : FileSystem) :
    fs.isDirectory ⟨a, []⟩ = true := by
  refine isDirectory_iff.2 ⟨[], stat_eq_ok_iff.2 ⟨?_, entry?_nil fs⟩⟩
  rw [locate_of_isAbsolute ha]
  rfl

/-- A file has a **name**. -/
theorem parts_ne_nil_of_isFile (hp : p.isAbsolute = true) (h : fs.isFile p = true) :
    p.parts ≠ [] := by
  obtain ⟨a, parts⟩ := p
  rintro rfl
  have hdirectory := isDirectory_eq_false_of_isFile h
  rw [isDirectory_top hp] at hdirectory
  cases hdirectory

/-- A text is read from a **file**. -/
theorem isFile_of_readText {text : Text} (h : fs.readText p = .ok text) : fs.isFile p = true := by
  rw [readText] at h
  cases hread : fs.read p with
  | error e => simp [hread] at h
  | ok bytes =>
    cases hstat : fs.stat p with
    | error cause => simp [read, hstat, failAt, bind, Except.bind] at hread
    | ok found =>
      obtain ⟨l, e⟩ := found
      cases e with
      | file content executable => exact isFile_iff.2 ⟨l, content, executable, hstat⟩
      | directory => simp [read, hstat, failAt, bind, Except.bind] at hread
      | link target => simp [read, hstat, failAt, bind, Except.bind] at hread

/-- A path that leads anywhere leads **through directories**. -/
theorem isDirectory_of_append (hp : p.isAbsolute = true) (hnames : names ≠ [])
    (h : fs.locate follow (p.append names) = .ok l) : fs.isDirectory p = true := by
  rw [locate_of_isAbsolute (p := p.append names) hp] at h
  obtain ⟨b, hb, hdir⟩ := exists_of_locateFrom_append hnames h
  rw [isDirectory_iff]
  exact ⟨b, stat_eq_ok_iff.2 ⟨by rwa [locate_of_isAbsolute hp], hdir⟩⟩

/-- What a path leads to is **there** when its last name is not followed. -/
theorem exists_locate_false (hp : p.isAbsolute = true) (h : fs.stat p = .ok (l, e)) :
    ∃ l', fs.locate false p = .ok l' ∧ (fs.entry? l').isSome := by
  obtain ⟨hl, he⟩ := stat_eq_ok_iff.1 h
  rw [locate_of_isAbsolute hp] at hl ⊢
  exact exists_locateFrom_false (by rw [he]; rfl) hl

/-- Where something stands at a path that is **no link**, the path leads there. -/
theorem stat_of_locate_false (h : fs.locate false p = .ok l) (he : fs.entry? l = some e)
    (hlink : ∀ target, e ≠ .link target) : fs.stat p = .ok (l, e) := by
  refine stat_eq_ok_iff.2
    ⟨locateFrom_of_keeps (.refl fs) (.inr ⟨rfl, fun target htarget ↦ ?_⟩) h, he⟩
  rw [he] at htarget
  exact hlink target (Option.some.inj htarget)

theorem stat_of_keeps (hkeeps : fs.Keeps fs') (hp : p.isAbsolute = true)
    (h : fs.stat p = .ok (l, e)) : fs'.stat p = .ok (l, e) := by
  obtain ⟨hl, he⟩ := stat_eq_ok_iff.1 h
  exact stat_eq_ok_iff.2 ⟨locate_of_keeps hkeeps hp hl, hkeeps l e he⟩

/-! ### Making directories -/

theorem newLocation_eq_ok (h : fs.newLocation p = .ok l) :
    ∃ d, fs.stat p.parent = .ok (d, .directory) ∧ l = d ++ [p.name] := by
  rw [newLocation, bind_eq_ok_iff] at h
  obtain ⟨⟨d, e⟩, hstat, h⟩ := h
  cases e with
  | directory => exact ⟨d, hstat, (Except.ok.inj h).symm⟩
  | file content executable => cases h
  | link target => cases h

/-- A directory is made where **nothing** was found, in a directory. -/
theorem makeDirectory_eq_ok (h : fs.makeDirectory p = .ok fs') :
    fs.locate false p = .error .notFound ∧
      ∃ d, fs.stat p.parent = .ok (d, .directory) ∧ fs' = fs.put (d ++ [p.name]) .directory := by
  rw [makeDirectory] at h
  cases hlocate : fs.locate false p with
  | ok l => simp [hlocate, failAt] at h
  | error cause =>
    cases hnew : fs.newLocation p with
    | error cause' => cases cause <;> simp [hlocate, hnew, failAt, bind, Except.bind] at h
    | ok l =>
      obtain ⟨d, hstat, rfl⟩ := newLocation_eq_ok hnew
      cases cause <;> simp [hlocate, hnew, failAt, bind, Except.bind] at h
      exact ⟨rfl, d, hstat, h.symm⟩

theorem parent_append_concat (p : Path) (names : List Text) (name : Text) :
    (p.append (names ++ [name])).parent = p.append names := by
  simp [Path.parent, Path.append]

/-- Below something that is no directory, **nothing** is one. -/
theorem isDirectory_append_eq_false (hp : p.isAbsolute = true) (hdir : fs.isDirectory p = false)
    (names : List Text) : fs.isDirectory (p.append names) = false := by
  by_cases hnames : names = []
  · rwa [hnames, Path.append, append_nil]
  · by_contra h
    obtain ⟨l, hstat⟩ := isDirectory_iff.1 (eq_true_of_ne_false h)
    rw [isDirectory_of_append hp hnames (stat_eq_ok_iff.1 hstat).1] at hdir
    cases hdir

/-- No directory is made **in place of** something, or below something that is no directory. -/
theorem exists_makeDirectory_error (hp : p.isAbsolute = true) (hfound : fs.locate false p = .ok l)
    (hdir : fs.isDirectory p = false) (names : List Text) :
    ∃ e, fs.makeDirectory (p.append names) = .error e ∧ (names = [] → e.cause = .exists) := by
  rcases eq_nil_or_concat names with rfl | ⟨names, name, rfl⟩
  · have hself : p.append [] = p := by rw [Path.append, append_nil]
    rw [hself, makeDirectory, hfound]
    exact ⟨_, rfl, fun _ ↦ rfl⟩
  · rw [concat_eq_append]
    cases hmake : fs.makeDirectory (p.append (names ++ [name])) with
    | error e => exact ⟨e, rfl, by simp⟩
    | ok fs' =>
      obtain ⟨-, d, hstat, -⟩ := makeDirectory_eq_ok hmake
      rw [parent_append_concat] at hstat
      have hbelow := isDirectory_append_eq_false hp hdir names
      rw [isDirectory_iff.2 ⟨d, hstat⟩] at hbelow
      cases hbelow

/-- Below something that is no directory, **no directories** are made. -/
theorem makeParents_of_blocked (hp : p.isAbsolute = true) (hfound : fs.locate false p = .ok l)
    (hdir : fs.isDirectory p = false) (n : Nat) (names : List Text) :
    ∃ e, makeParentsFrom n fs (p.append names) = .error e := by
  induction n generalizing names with
  | zero =>
    obtain ⟨e, he, -⟩ := exists_makeDirectory_error hp hfound hdir names
    exact ⟨e, he⟩
  | succ n ih =>
    obtain ⟨e, he, hexists⟩ := exists_makeDirectory_error hp hfound hdir names
    simp only [makeParentsFrom, he]
    split
    · next hmissing =>
      rcases eq_nil_or_concat names with rfl | ⟨names, name, rfl⟩
      · rw [hexists rfl] at hmissing
        exact nomatch hmissing.1
      · rw [concat_eq_append, parent_append_concat]
        obtain ⟨e', he'⟩ := ih names
        exact ⟨e', by rw [he']⟩
    · rw [isDirectory_append_eq_false hp hdir names]
      exact ⟨e, rfl⟩

end ScriptTree.FileSystem
