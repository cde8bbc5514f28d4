import ScriptTree.Proofs.Exports
import ScriptTree.Proofs.Outcome
import Mathlib.Data.List.Perm.Basic
import Mathlib.Data.Nat.Find

/-!
# Exports in another order

The fronts of two patterns that match a subpath are starts of the same text, so patterns with
equally long fronts have the **same front** and differ in what follows the star. Of these the first
is taken. Each of them can be written first, so the order of the fields matters exactly when two of
them lead to different paths.

A rule that does not look at the order would take the one with the longest back, of which there is
only one. What is taken agrees with that rule in every order exactly when the order does not matter.

## Main results

* `Exports.Tied.front_eq`, `Exports.Preferred.unique`: how such patterns differ.
* `matchExports_reordered_iff`: when the order matters.
-/

namespace ScriptTree

open List

namespace Exports

variable {fields fields' : List (Text × Json)} {subpath front middle back : Text} {value : Json}

/-- A pattern with the **longest front** of those that match a subpath. -/
structure Tied (fields : List (Text × Json)) (subpath : Text) (value : Json)
    (front middle back : Text) : Prop where
  mem : (front ++ star :: back, value) ∈ fields
  fits : Fits subpath (front ++ star :: back) front middle back
  longest : ∀ f ∈ fields, ∀ front' middle' back', Fits subpath f.1 front' middle' back' →
    front'.length ≤ front.length

/-- The pattern with the longest front and, of several, the one with the **longest back**. Which one
that is does not depend on the order of writing. -/
structure Preferred (fields : List (Text × Json)) (subpath : Text) (value : Json)
    (front middle back : Text) : Prop extends Tied fields subpath value front middle back where
  back_longest : ∀ value' front' middle' back', Tied fields subpath value' front' middle' back' →
    back'.length ≤ back.length

theorem tied_of_picked (h : Picked fields subpath value front middle back) :
    Tied fields subpath value front middle back := by
  obtain ⟨key, before, after, rfl, hfits, hbefore, hafter⟩ := h
  obtain rfl := hfits.key_eq
  refine ⟨by simp, hfits, fun f hf front' middle' back' hfits' ↦ ?_⟩
  rcases mem_append.1 hf with hf | hf
  · exact Nat.le_of_lt (hbefore f hf _ _ _ hfits')
  · rcases mem_cons.1 hf with rfl | hf
    · -- A key with one star is split in one way only.
      have hsame := (splitOn_eq_pair_iff.2 ⟨hfits.key_eq, hfits.front_plain, hfits.back_plain⟩).symm.trans
        (splitOn_eq_pair_iff.2 ⟨hfits'.key_eq, hfits'.front_plain, hfits'.back_plain⟩)
      rw [(List.cons.inj hsame).1]
    · exact hafter f hf _ _ _ hfits'

/-- Patterns with the longest front have the **same front**. -/
theorem Tied.front_eq (h : Tied fields subpath value front middle back) {value' : Json}
    {front' middle' back' : Text} (h' : Tied fields subpath value' front' middle' back') :
    front = front' := by
  have hlength : front.length = front'.length :=
    Nat.le_antisymm (h'.longest _ h.mem _ _ _ h.fits) (h.longest _ h'.mem _ _ _ h'.fits)
  have hsubpath := h.fits.subpath_eq.symm.trans h'.fits.subpath_eq
  rw [append_assoc, append_assoc] at hsubpath
  exact (append_inj hsubpath hlength).1

theorem Tied.perm (h : Tied fields subpath value front middle back) (hperm : fields'.Perm fields) :
    Tied fields' subpath value front middle back :=
  ⟨hperm.mem_iff.2 h.mem, h.fits, fun f hf ↦ h.longest f (hperm.mem_iff.1 hf)⟩

/-- Written in front, a pattern with the longest front **is taken**. -/
theorem Tied.exists_picked (h : Tied fields subpath value front middle back) :
    ∃ fields', fields'.Perm fields ∧ Picked fields' subpath value front middle back := by
  obtain ⟨before, after, hfields⟩ := append_of_mem h.mem
  have hperm : ((front ++ star :: back, value) :: (before ++ after)).Perm fields := by
    rw [hfields]
    exact perm_middle.symm
  exact ⟨_, hperm, _, [], before ++ after, rfl, h.fits, by simp, fun f hf ↦
    h.longest f (hperm.mem_iff.1 (mem_cons_of_mem _ hf))⟩

/-- Only **one** pattern is preferred. -/
theorem Preferred.unique (hnodup : (fields.map (·.1)).Nodup)
    (h : Preferred fields subpath value front middle back) {value' : Json}
    {front' middle' back' : Text} (h' : Preferred fields subpath value' front' middle' back') :
    value = value' ∧ front = front' ∧ middle = middle' ∧ back = back' := by
  obtain rfl := h.toTied.front_eq h'.toTied
  have hlength : back.length = back'.length :=
    Nat.le_antisymm (h'.back_longest _ _ _ _ h.toTied) (h.back_longest _ _ _ _ h'.toTied)
  have hsubpath := h.fits.subpath_eq.symm.trans h'.fits.subpath_eq
  obtain ⟨hfront, rfl⟩ := append_inj' hsubpath hlength
  obtain rfl := append_cancel_left hfront
  have hvalue := (lookup_of_mem hnodup h.mem).symm.trans (lookup_of_mem hnodup h'.mem)
  exact ⟨Option.some.inj hvalue, rfl, rfl, rfl⟩

theorem exists_preferred
    (h : ∃ f ∈ fields, ∃ front middle back, Fits subpath f.1 front middle back) :
    ∃ value front middle back, Preferred fields subpath value front middle back := by
  classical
  let P (length : Nat) : Prop :=
    ∃ value front middle back, Tied fields subpath value front middle back ∧ back.length = length
  have hbound {value : Json} {front middle back : Text}
      (h : Tied fields subpath value front middle back) : back.length ≤ subpath.length := by
    rw [h.fits.subpath_eq, length_append]
    exact Nat.le_add_left _ _
  obtain ⟨value, front, middle, back, hpicked⟩ := exists_picked h
  have htied := tied_of_picked hpicked
  obtain ⟨value, front, middle, back, htied, hlength⟩ : P (Nat.findGreatest P subpath.length) :=
    Nat.findGreatest_spec (hbound htied) ⟨value, front, middle, back, htied, rfl⟩
  refine ⟨value, front, middle, back, htied, fun value' front' middle' back' htied' ↦ ?_⟩
  rw [hlength]
  exact Nat.le_findGreatest (hbound htied') ⟨value', front', middle', back', htied', rfl⟩

theorem lookup_eq_of_perm (hnodup : (fields.map (·.1)).Nodup) (hperm : fields'.Perm fields)
    (subpath : Text) : fields'.lookup subpath = fields.lookup subpath := by
  refine Option.ext fun value ↦ ?_
  constructor
  · intro h
    exact lookup_of_mem hnodup (hperm.mem_iff.1 (mem_of_lookup h))
  · intro h
    exact lookup_of_mem ((hperm.map _).nodup_iff.2 hnodup) (hperm.mem_iff.2 (mem_of_lookup h))

theorem lookup_eq_none_iff : fields.lookup subpath = none ↔ subpath ∉ fields.map (·.1) := by
  rw [List.lookup_eq_none_iff]
  constructor
  · rintro h hkey
    obtain ⟨f, hf, rfl⟩ := List.mem_map.1 hkey
    exact absurd (h f hf) (by simp)
  · intro h f hf
    rw [bne_iff_ne]
    rintro rfl
    exact h (List.mem_map.2 ⟨f, hf, rfl⟩)

/-- A path, or nothing, that a subpath **can lead to** when only the order of the fields is left
open. -/
inductive CanLead (fields : List (Text × Json)) (subpath : Text) : Option Text → Prop
  | named {value : Json} (h : fields.lookup subpath = some value) :
      CanLead fields subpath (target? value)
  | pattern (hlookup : fields.lookup subpath = none) {value : Json} {front middle back : Text}
      (h : Tied fields subpath value front middle back) :
      CanLead fields subpath (filled value middle)
  | nowhere (hlookup : fields.lookup subpath = none)
      (h : ¬ ∃ f ∈ fields, ∃ front middle back, Fits subpath f.1 front middle back) :
      CanLead fields subpath none

theorem canLead_matchFields (fields : List (Text × Json)) (subpath : Text) :
    CanLead fields subpath (matchFields fields subpath) := by
  cases hlookup : fields.lookup subpath with
  | some value =>
    rw [matchFields_of_lookup hlookup]
    exact .named hlookup
  | none =>
    by_cases hfits : ∃ f ∈ fields, ∃ front middle back, Fits subpath f.1 front middle back
    · obtain ⟨value, front, middle, back, hpicked⟩ := exists_picked hfits
      rw [matchFields_of_picked hlookup hpicked]
      exact .pattern hlookup (tied_of_picked hpicked)
    · rw [matchFields_of_none hlookup hfits]
      exact .nowhere hlookup hfits

theorem CanLead.perm (hnodup : (fields.map (·.1)).Nodup) (hperm : fields'.Perm fields)
    {result : Option Text} (h : CanLead fields' subpath result) : CanLead fields subpath result := by
  have hlookup := lookup_eq_of_perm hnodup hperm subpath
  cases h with
  | named h => exact .named (hlookup ▸ h)
  | pattern h htied => exact .pattern (hlookup ▸ h) (htied.perm hperm.symm)
  | nowhere h hfits =>
    refine .nowhere (hlookup ▸ h) ?_
    rintro ⟨f, hf, hfit⟩
    exact hfits ⟨f, hperm.mem_iff.2 hf, hfit⟩

/-- A subpath that is named, or whose patterns with the longest front lead to the same path, can lead
to **one path** only. -/
theorem CanLead.unique {result result' : Option Text} (h : CanLead fields subpath result)
    (hsame : subpath ∈ fields.map (·.1) ∨
      ∀ value front middle back value' front' middle' back',
        Tied fields subpath value front middle back →
        Tied fields subpath value' front' middle' back' →
        filled value middle = filled value' middle')
    (h' : CanLead fields subpath result') : result = result' := by
  cases h with
  | named hlookup =>
    cases h' with
    | named hlookup' => rw [Option.some.inj (hlookup.symm.trans hlookup')]
    | pattern hlookup' => simp [hlookup'] at hlookup
    | nowhere hlookup' => simp [hlookup'] at hlookup
  | pattern hlookup htied =>
    have hsame := hsame.resolve_left (lookup_eq_none_iff.1 hlookup)
    cases h' with
    | named hlookup' => simp [hlookup] at hlookup'
    | pattern _ htied' => exact hsame _ _ _ _ _ _ _ _ htied htied'
    | nowhere _ hfits => exact absurd ⟨_, htied.mem, _, _, _, htied.fits⟩ hfits
  | nowhere hlookup hfits =>
    cases h' with
    | named hlookup' => simp [hlookup] at hlookup'
    | pattern _ htied => exact absurd ⟨_, htied.mem, _, _, _, htied.fits⟩ hfits
    | nowhere => rfl

theorem exists_perm_of_canLead (hnodup : (fields.map (·.1)).Nodup) {result : Option Text}
    (h : CanLead fields subpath result) :
    ∃ fields', fields'.Perm fields ∧ matchFields fields' subpath = result := by
  cases h with
  | named h => exact ⟨fields, .refl _, matchFields_of_lookup h⟩
  | pattern hlookup htied =>
    obtain ⟨fields', hperm, hpicked⟩ := htied.exists_picked
    exact ⟨fields', hperm, matchFields_of_picked
      ((lookup_eq_of_perm hnodup hperm subpath).trans hlookup) hpicked⟩
  | nowhere hlookup hfits => exact ⟨fields, .refl _, matchFields_of_none hlookup hfits⟩

end Exports

open Exports

variable {fields : List (Text × Json)}

/-- **When the order of writing matters.** In some order of the fields a subpath leads to each path
that a pattern with the longest front leads to, and to no other. So it leads to the same path in
every order exactly when it is named itself, or all patterns with the longest front lead to the same
path; and exactly then it is the path of the one pattern among these that has the longest back. -/
theorem matchExports_reordered_iff (hnodup : (fields.map (·.1)).Nodup)
    (hsubpaths : ∃ f ∈ fields, f.1.head? = some (.scalar '.')) (subpath : Text) :
    (∀ result, (∃ fields', fields'.Perm fields ∧ matchExports (.object fields') subpath = result) ↔
      CanLead fields subpath result) ∧
    ((∀ fields', fields'.Perm fields →
        matchExports (.object fields') subpath = matchExports (.object fields) subpath) ↔
      subpath ∈ fields.map (·.1) ∨
        ∀ value front middle back value' front' middle' back',
          Tied fields subpath value front middle back →
          Tied fields subpath value' front' middle' back' →
          filled value middle = filled value' middle') ∧
    (subpath ∉ fields.map (·.1) →
      (∃ f ∈ fields, ∃ front middle back, Fits subpath f.1 front middle back) →
      ∃ value front middle back, Preferred fields subpath value front middle back ∧
        (∀ value' front' middle' back', Preferred fields subpath value' front' middle' back' →
          value = value' ∧ front = front' ∧ middle = middle' ∧ back = back') ∧
        ((∀ fields', fields'.Perm fields →
            matchExports (.object fields') subpath = matchExports (.object fields) subpath) ↔
          ∀ fields', fields'.Perm fields →
            matchExports (.object fields') subpath = filled value middle)) := by
  have hmatch {fields'} (hperm : fields'.Perm fields) :
      matchExports (.object fields') subpath = matchFields fields' subpath :=
    matchExports_object (by simpa only [hperm.mem_iff] using hsubpaths) subpath
  have hleads (result) : (∃ fields', fields'.Perm fields ∧
      matchExports (.object fields') subpath = result) ↔ CanLead fields subpath result := by
    constructor
    · rintro ⟨fields', hperm, rfl⟩
      rw [hmatch hperm]
      exact (canLead_matchFields fields' subpath).perm hnodup hperm
    · intro h
      obtain ⟨fields', hperm, hresult⟩ := exists_perm_of_canLead hnodup h
      exact ⟨fields', hperm, (hmatch hperm).trans hresult⟩
  have hself : CanLead fields subpath (matchExports (.object fields) subpath) :=
    (hleads _).1 ⟨fields, .refl _, rfl⟩
  -- In every order the same path: it can lead to nothing else.
  have hsame : (∀ fields', fields'.Perm fields →
      matchExports (.object fields') subpath = matchExports (.object fields) subpath) ↔
      ∀ result, CanLead fields subpath result → result = matchExports (.object fields) subpath := by
    constructor
    · intro h result hresult
      obtain ⟨fields', hperm, rfl⟩ := (hleads result).2 hresult
      exact h fields' hperm
    · intro h fields' hperm
      exact h _ ((hleads _).1 ⟨fields', hperm, rfl⟩)
  refine ⟨hleads, hsame.trans ⟨fun h ↦ ?_, fun h result hresult ↦ ?_⟩, fun hkey hfits ↦ ?_⟩
  · by_cases hkey : subpath ∈ fields.map (·.1)
    · exact .inl hkey
    · have hlookup := lookup_eq_none_iff.2 hkey
      refine .inr fun value front middle back value' front' middle' back' htied htied' ↦ ?_
      exact (h _ (.pattern hlookup htied)).trans (h _ (.pattern hlookup htied')).symm
  · exact hresult.unique h hself
  · obtain ⟨value, front, middle, back, hpreferred⟩ := exists_preferred hfits
    refine ⟨value, front, middle, back, hpreferred, fun _ _ _ _ h ↦ hpreferred.unique hnodup h,
      fun h fields' hperm ↦ ?_, fun h fields' hperm ↦ ?_⟩
    · rw [h fields' hperm, hsame.1 h _ (.pattern (lookup_eq_none_iff.2 hkey) hpreferred.toTied)]
    · rw [h fields' hperm, h fields (.refl _)]

/-- Exports with two patterns of the same front. -/
def tiedExports : List (Text × Json) :=
  [("./a*", .string "./x/*.js"), ("./a*b", .string "./y/*.js")]

/-- At a subpath that matches both patterns of `tiedExports`. -/
theorem matchExports_reordered_tied :
    CanLead tiedExports "./a1b" (some ("./x/1b.js" : Text)) ∧
    CanLead tiedExports "./a1b" (some ("./y/1.js" : Text)) ∧
    ∃ value front middle back, Preferred tiedExports "./a1b" value front middle back := by
  have hnodup : (tiedExports.map (·.1)).Nodup := by decide
  have hsubpaths : ∃ f ∈ tiedExports, f.1.head? = some (.scalar '.') :=
    ⟨_, List.mem_cons_self, rfl⟩
  have hfits : Fits "./a1b" "./a*" "./a" "1b" "" := ⟨rfl, by decide, by decide, rfl⟩
  obtain ⟨hleads, -, hpreferred⟩ := matchExports_reordered_iff hnodup hsubpaths "./a1b"
  obtain ⟨value, front, middle, back, h, -⟩ :=
    hpreferred (by decide) ⟨_, List.mem_cons_self, _, _, _, hfits⟩
  exact ⟨(hleads _).1 ⟨tiedExports, .refl _, by rfl⟩,
    (hleads _).1 ⟨tiedExports.reverse, List.reverse_perm _, by rfl⟩, value, front, middle, back, h⟩

/-- The order of the two patterns **decides** where a subpath leads. -/
theorem matchExports_tied :
    matchExports (.object tiedExports) "./a1b" = some ("./x/1b.js" : Text) ∧
    matchExports (.object tiedExports.reverse) "./a1b" = some ("./y/1.js" : Text) ∧
    tiedExports.reverse.Perm tiedExports ∧ (tiedExports.map (·.1)).Nodup ∧
    ∃ f ∈ tiedExports, f.1.head? = some (.scalar '.') :=
  ⟨by rfl, by rfl, List.reverse_perm _, by decide, _, List.mem_cons_self, rfl⟩

end ScriptTree
