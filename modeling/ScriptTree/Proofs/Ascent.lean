import ScriptTree.Proofs.Strays

/-!
# Up and down between directories

The search for a common root **climbs**: from a directory below which one of the paths does not lie
it goes on to the parent, and at the top, which is its own parent, it stops whatever lies where. The
directories at or above a start are linearly ordered, each the start of the next one's names, and
all paths from the same anchor lie below the topmost. So the climb never stops for want of a parent:
it ends at the longest directory of the chain that is at or above every path.

A specifier from a directory to a path starts with `./`, unless the way there starts with `..` and
goes on. The test is one of the text, and a name such as `..a` or a way of the single step `..`
start alike without passing it; whatever it says, the specifier is read as the way itself.

## Main results

* `commonRoot_eq_ite`: one step of the climb.
* `commonRoot_isLongest`: where the climb ends.
* `relativeSpecifier_leadsBack`: where a specifier leads.
-/

namespace ScriptTree

open List

/-! ### Climbing -/

section Climbs

variable {paths : List Path} {start d r p : Path}

/-- **Climbing** from a directory to one below which all paths lie, or to the top. -/
inductive Climbs (paths : List Path) : Path → Path → Prop
  | here {d : Path} (h : ∀ p ∈ paths, p.isBelow d = true) : Climbs paths d d
  | top {d : Path} (h : ¬∀ p ∈ paths, p.isBelow d = true) (htop : d.parent = d) : Climbs paths d d
  | up {d r : Path} (h : ¬∀ p ∈ paths, p.isBelow d = true) (hup : d.parent ≠ d)
      (hrest : Climbs paths d.parent r) : Climbs paths d r

/-- A path **at or above** another one: the other goes on where it ends. -/
def Path.IsAtOrAbove (d p : Path) : Prop := d.anchor = p.anchor ∧ d.parts <+: p.parts

theorem Path.isBelow_iff_isAtOrAbove : p.isBelow d = true ↔ d.IsAtOrAbove p := by
  rw [isBelow_iff, IsAtOrAbove, eq_comm]

theorem Path.parent_eq_self_iff : d.parent = d ↔ d.parts = [] := by
  obtain ⟨a, parts⟩ := d
  simp only [parent, Path.mk.injEq, true_and]
  constructor
  · intro h
    have hlength := congrArg List.length h
    rw [length_dropLast] at hlength
    exact length_eq_zero_iff.1 (by omega)
  · rintro rfl
    rfl

/-- Above a path with a name are its **parent** and what is above that. -/
theorem Path.parents_eq_cons (h : d.parent ≠ d) : d.parents = d.parent :: d.parent.parents := by
  have hparts := mt parent_eq_self_iff.2 h
  obtain ⟨a, parts⟩ := d
  obtain ⟨names, name, rfl⟩ := (eq_nil_or_concat' parts).resolve_left hparts
  simp only [parents, parent, length_append, length_singleton, dropLast_concat, range_succ_eq_map,
    map_cons, map_map]
  congr 1
  · simp
  · refine map_congr_left fun i hi ↦ ?_
    have hle : names.length - 1 - i ≤ names.length := by omega
    rw [Function.comp_apply, Nat.succ_eq_add_one, show names.length + 1 - 1 - (i + 1)
      = names.length - 1 - i by omega, take_append_of_le_length hle]

/-- **One step** of the climb. -/
theorem commonRoot_eq_ite (start : Path) (paths : List Path) :
    commonRoot start paths =
      if (∀ p ∈ paths, p.isBelow start = true) ∨ start.parent = start then start
      else commonRoot start.parent paths := by
  by_cases htop : start.parent = start
  · have hnone : start.parents = [] := by simp [Path.parents, Path.parent_eq_self_iff.1 htop]
    rw [if_pos (.inr htop), commonRoot, hnone, firstAbove]
  · rw [commonRoot, Path.parents_eq_cons htop, firstAbove]
    simp only [all_eq_true, htop, or_false]
    rfl

/-- The climb **ends**, and nowhere but at the common root. -/
theorem climbs_iff : Climbs paths start r ↔ r = commonRoot start paths := by
  constructor
  · intro h
    induction h with
    | here h => rw [commonRoot_eq_ite, if_pos (.inl h)]
    | top _ htop => rw [commonRoot_eq_ite, if_pos (.inr htop)]
    | @up d r h hup _ ih => rw [ih, commonRoot_eq_ite d, if_neg (not_or.2 ⟨h, hup⟩)]
  · rintro rfl
    -- Each step up takes a name away.
    induction hn : start.parts.length generalizing start with
    | zero =>
      have htop := Path.parent_eq_self_iff.2 (length_eq_zero_iff.1 hn)
      rw [commonRoot_eq_ite, if_pos (.inr htop)]
      by_cases h : ∀ p ∈ paths, p.isBelow start = true
      · exact .here h
      · exact .top h htop
    | succ n ih =>
      have hup : start.parent ≠ start := fun htop ↦ by
        simp [Path.parent_eq_self_iff.1 htop] at hn
      rw [commonRoot_eq_ite]
      split
      · next h => exact .here (h.resolve_right hup)
      · next h => exact .up (mt .inl h) hup (ih (by simp [Path.parent, hn]))

/-- What is at or above the start and all paths is at or above their **common root**. -/
theorem isAtOrAbove_commonRoot (hd : d.IsAtOrAbove start) (h : ∀ p ∈ paths, d.IsAtOrAbove p) :
    d.IsAtOrAbove (commonRoot start paths) := by
  have hclimb : Climbs paths start (commonRoot start paths) := climbs_iff.2 rfl
  generalize commonRoot start paths = r at hclimb ⊢
  induction hclimb with
  | here => exact hd
  | top => exact hd
  | @up start r hnot hup _ ih =>
    refine ih ⟨hd.1, ?_⟩
    -- The start itself is not at or above all paths, so what is has fewer names.
    have hne : d.parts ≠ start.parts := fun heq ↦ hnot fun p hp ↦
      Path.isBelow_iff.2 ⟨(h p hp).1.symm.trans hd.1, heq ▸ (h p hp).2⟩
    obtain ⟨rest, hrest⟩ := hd.2
    have hne' : rest ≠ [] := fun hnil ↦ hne (by rw [← hrest, hnil, append_nil])
    rw [Path.parent, ← hrest, dropLast_append_of_ne_nil hne']
    exact prefix_append _ _

/-- **Where the climb ends.** For paths with the anchor of the start, climbing ends at one
directory, the longest of those at or above the start that are at or above every path. -/
theorem commonRoot_isLongest (h : ∀ p ∈ paths, p.anchor = start.anchor) (r : Path) :
    (Climbs paths start r ↔ r = commonRoot start paths) ∧
      (r = commonRoot start paths ↔
        r.IsAtOrAbove start ∧ (∀ p ∈ paths, r.IsAtOrAbove p) ∧
          ∀ d : Path, d.IsAtOrAbove start → (∀ p ∈ paths, d.IsAtOrAbove p) →
            d.parts.length ≤ r.parts.length) := by
  have hstart : (commonRoot start paths).IsAtOrAbove start :=
    Path.isBelow_iff_isAtOrAbove.1 (start_isBelow_commonRoot start paths)
  have hpaths (p) (hp : p ∈ paths) : (commonRoot start paths).IsAtOrAbove p :=
    Path.isBelow_iff_isAtOrAbove.1 (isBelow_commonRoot h hp)
  refine ⟨climbs_iff, ?_, ?_⟩
  · rintro rfl
    exact ⟨hstart, hpaths, fun d hd hall ↦ (isAtOrAbove_commonRoot hd hall).2.length_le⟩
  · rintro ⟨hr, hall, hlongest⟩
    have hbelow := isAtOrAbove_commonRoot hr hall
    have hparts := hbelow.2.eq_of_length_le (hlongest _ hstart hpaths)
    obtain ⟨a, parts⟩ := r
    rw [show a = (commonRoot start paths).anchor from hbelow.1, show parts = _ from hparts]

/-- Two directories side by side. -/
theorem commonRoot_isLongest_siblings :
    Climbs [⟨.root, ["p", "src", "a.js"]⟩, ⟨.root, ["p", "lib", "b.js"]⟩] ⟨.root, ["p", "src"]⟩
      ⟨.root, ["p"]⟩ :=
  (commonRoot_isLongest (by decide) _).1.2 (by decide)

end Climbs

/-! ### Specifiers -/

section Specifiers

variable {q dir : Path}

theorem startsWith_relativeSpecifier (q dir : Path) :
    (relativeSpecifier q dir).startsWith "./" = true ∨
      (relativeSpecifier q dir).startsWith "../" = true := by
  rcases relativeSpecifier_eq q dir with ⟨heq, hup⟩ | heq
  · exact .inr (heq ▸ hup)
  · exact .inl (heq ▸ rfl)

/-- **A specifier leads back.** For proper paths from the single slash, the specifier of one of them
seen from the other is internal, starts with `./` or `../`, and leads from there to the path. -/
theorem relativeSpecifier_leadsBack (hq : q.IsProper) (hdir : dir.IsProper)
    (hroot : q.anchor = .root) (hroot' : dir.anchor = .root) :
    isInternal (relativeSpecifier q dir) = true ∧
      ((relativeSpecifier q dir).startsWith "./" = true ∨
        (relativeSpecifier q dir).startsWith "../" = true) ∧
      dependencyPath dir (relativeSpecifier q dir) = q := by
  have hstarts := startsWith_relativeSpecifier q dir
  have hdot : Text.startsWith (relativeSpecifier q dir) "." = true := by
    simp only [Text.startsWith, isPrefixOf_iff_prefix] at hstarts ⊢
    rcases hstarts with h | h
    · exact .trans (by decide) h
    · exact .trans (by decide) h
  refine ⟨by rw [isInternal, hdot, Bool.true_or], hstarts, ?_⟩
  rw [dependencyPath, ofText_relativeSpecifier hq hdir]
  exact Path.normal_append_relativeParts hq hdir (hroot'.trans hroot.symm)

/-- The single step up. -/
theorem relativeSpecifier_leadsBack_parent :
    relativeSpecifier ⟨.root, ["o"]⟩ ⟨.root, ["o", "..a"]⟩ = "./.." ∧
      dependencyPath ⟨.root, ["o", "..a"]⟩ "./.." = ⟨.root, ["o"]⟩ :=
  ⟨by decide, (relativeSpecifier_leadsBack (q := ⟨.root, ["o"]⟩) ⟨rfl, by decide⟩
    ⟨rfl, by decide⟩ rfl rfl).2.2⟩

end Specifiers

end ScriptTree
