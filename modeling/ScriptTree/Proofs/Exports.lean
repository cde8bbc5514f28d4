import ScriptTree.Proofs.Path
import ScriptTree.Resolve.Exports
import Mathlib.Tactic.Common

/-!
# Where exports lead

A target is a tree: its leaves are paths, its forks are lists and conditions. A leaf **counts** when
every condition on the way to it holds, and a target leads to the first leaf that counts, in the
order in which the target is written. `Leaf` says so with places in the tree and without a search, so
branches that have no leaf need no mention.

A subpath with a star is split at the star. Of the patterns that match a subpath the one with the
longest front is taken, and of several such the one that is written first, whether its target has a
leaf or not.

## Main results

* `Exports.first_target?`: a target leads to its first leaf.
* `Exports.bestMatch?_eq_some_iff`: which pattern is taken.
* `matchExports_exactly`: where a subpath leads.
-/

namespace ScriptTree

open List Option

namespace Exports

/-! ### Leaves -/

/-- A **leaf** of a target that counts: its place, as the numbers of the branches on the way to it,
and its path. -/
inductive Leaf : Json → List Nat → Text → Prop
  | string (path : Text) : Leaf (.string path) [] path
  | item {items : List Json} {i : Nat} {item : Json} {place : List Nat} {path : Text}
      (hitem : items[i]? = some item) (h : Leaf item place path) :
      Leaf (.array items) (i :: place) path
  | field {fields : List (Text × Json)} {i : Nat} {condition : Text} {value : Json}
      {place : List Nat} {path : Text} (hfield : fields[i]? = some (condition, value))
      (hholds : condition ∈ conditions) (h : Leaf value place path) :
      Leaf (.object fields) (i :: place) path

/-- The **first** of the paths that stand at places of a document, in the order of writing; nothing
if there are none. -/
def First (R : List Nat → Text → Prop) : Option Text → Prop
  | some path => ∃ place, R place path ∧ ∀ other path', R other path' → ¬ List.Lex (· < ·) other place
  | none => ∀ place path, ¬ R place path

/-- What stands at places of **one of some** branches. -/
def Among {α : Type} (R : α → List Nat → Text → Prop) (xs : List α) : List Nat → Text → Prop
  | [], _ => False
  | i :: place, path => ∃ x, xs[i]? = some x ∧ R x place path

/-- The first path of some branches is that of the first branch that has one. -/
theorem first_findSome? {α : Type} {R : α → List Nat → Text → Prop} {f : α → Option Text}
    {xs : List α} (h : ∀ x ∈ xs, First (R x) (f x)) : First (Among R xs) (xs.findSome? f) := by
  induction xs with
  | nil =>
    intro place path hplace
    cases place with
    | nil => exact hplace
    | cons i place => simp [Among] at hplace
  | cons x xs ih =>
    have hx := h x mem_cons_self
    have hxs := ih fun y hy ↦ h y (mem_cons_of_mem _ hy)
    rw [findSome?_cons]
    cases hfx : f x with
    | some path =>
      rw [hfx] at hx
      obtain ⟨place, hplace, hleast⟩ := hx
      refine ⟨0 :: place, ⟨x, rfl, hplace⟩, fun other path' hother ↦ ?_⟩
      cases other with
      | nil => exact hother.elim
      | cons i other =>
        obtain ⟨y, hy, hother⟩ := hother
        cases i with
        | zero =>
          obtain rfl : x = y := by simpa using hy
          rintro (_ | hlt | hlt)
          · exact absurd hlt (Nat.lt_irrefl 0)
          · exact hleast other path' hother hlt
        | succ i =>
          rintro (_ | hlt | _)
          exact Nat.not_lt_zero _ hlt
    | none =>
      -- The first branch has no path, so everything stands one branch further on.
      rw [hfx] at hx
      have hlater {place : List Nat} {path : Text} (hplace : Among R (x :: xs) place path) :
          ∃ i rest, place = (i + 1) :: rest ∧ Among R xs (i :: rest) path := by
        cases place with
        | nil => exact hplace.elim
        | cons i rest =>
          obtain ⟨y, hy, hrest⟩ := hplace
          cases i with
          | zero =>
            obtain rfl : x = y := by simpa using hy
            exact absurd hrest (hx rest path)
          | succ i => exact ⟨i, rest, rfl, y, by simpa using hy, hrest⟩
      cases hfound : xs.findSome? f with
      | none =>
        rw [hfound] at hxs
        intro place path hplace
        obtain ⟨i, rest, -, hrest⟩ := hlater hplace
        exact hxs _ _ hrest
      | some path =>
        rw [hfound] at hxs
        obtain ⟨place, hplace, hleast⟩ := hxs
        cases place with
        | nil => exact hplace.elim
        | cons i place =>
          obtain ⟨y, hy, hplace⟩ := hplace
          refine ⟨(i + 1) :: place, ⟨y, by simpa using hy, hplace⟩, fun other path' hother ↦ ?_⟩
          obtain ⟨j, rest, rfl, hrest⟩ := hlater hother
          rintro (_ | hlt | hlt)
          · exact hleast _ _ hrest (.rel (Nat.lt_of_succ_lt_succ hlt))
          · exact hleast _ _ hrest (.cons hlt)

theorem First.congr {R S : List Nat → Text → Prop} (h : ∀ place path, R place path ↔ S place path)
    {path : Option Text} (hfirst : First R path) : First S path := by
  obtain rfl : R = S := funext fun place ↦ funext fun path ↦ propext (h place path)
  exact hfirst

theorem firstItem?_eq (items : List Json) : firstItem? items = items.findSome? target? := by
  induction items with
  | nil => rfl
  | cons item items ih =>
    rw [firstItem?, ih, findSome?_cons]
    cases target? item <;> rfl

theorem firstField?_eq (fields : List (Text × Json)) :
    firstField? fields
      = fields.findSome? fun f ↦ if conditions.contains f.1 then target? f.2 else none := by
  induction fields with
  | nil => rfl
  | cons field fields ih =>
    obtain ⟨condition, value⟩ := field
    rw [firstField?, ih, findSome?_cons]
    cases conditions.contains condition with
    | false => rfl
    | true => cases target? value <;> rfl

/-- The leaves of a target by its **branches**. -/
theorem among_leaf_iff {items : List Json} {place : List Nat} {path : Text} :
    Among Leaf items place path ↔ Leaf (.array items) place path := by
  constructor
  · intro h
    cases place with
    | nil => exact h.elim
    | cons i place =>
      obtain ⟨item, hitem, h⟩ := h
      exact .item hitem h
  · rintro (_ | ⟨hitem, h⟩)
    exact ⟨_, hitem, h⟩

theorem among_field_iff {fields : List (Text × Json)} {place : List Nat} {path : Text} :
    Among (fun f place path ↦ f.1 ∈ conditions ∧ Leaf f.2 place path) fields place path
      ↔ Leaf (.object fields) place path := by
  constructor
  · intro h
    cases place with
    | nil => exact h.elim
    | cons i place =>
      obtain ⟨field, hfield, hholds, h⟩ := h
      exact .field hfield hholds h
  · rintro (_ | _ | ⟨hfield, hholds, h⟩)
    exact ⟨_, hfield, hholds, h⟩

/-- A target leads to the **first leaf** that counts. -/
theorem first_target? (target : Json) : First (Leaf target) (target? target) := by
  match target with
  | .null | .bool _ | .number _ => exact fun _ _ h ↦ by cases h
  | .string path => exact ⟨[], .string path, fun _ _ _ ↦ nofun⟩
  | .array items =>
    rw [target?, firstItem?_eq]
    refine First.congr (fun _ _ ↦ among_leaf_iff) (first_findSome? fun item hitem ↦ ?_)
    have := sizeOf_lt_of_mem hitem
    exact first_target? item
  | .object fields =>
    rw [target?, firstField?_eq]
    refine First.congr (fun _ _ ↦ among_field_iff) (first_findSome? fun field hfield ↦ ?_)
    have := sizeOf_lt_of_mem hfield
    have hvalue : sizeOf field.2 < sizeOf field := by rw [Prod.mk.sizeOf_spec]; omega
    split
    · next hholds =>
      refine First.congr (fun _ _ ↦ ?_) (first_target? field.2)
      simp [contains_iff_mem.1 hholds]
    · next hholds =>
      intro place path h
      exact hholds (contains_iff_mem.2 h.1)
termination_by sizeOf target

/-! ### Patterns -/

/-- The star of a pattern. -/
def star : CodePoint := .scalar '*'

/-- A subpath that **matches** a key with exactly one star: what stands before and after the star
stands at the two ends of the subpath, and the rest of it is what the star matches. -/
structure Fits (subpath key front middle back : Text) : Prop where
  key_eq : key = front ++ star :: back
  front_plain : star ∉ front
  back_plain : star ∉ back
  subpath_eq : subpath = front ++ middle ++ back

variable {fields : List (Text × Json)} {subpath key front middle back : Text} {value : Json}

/-- The pieces of a text between its stars with another text between them: **every star** is
replaced by it. -/
theorem join_splitOn (sep : CodePoint) (filler t : Text) :
    Text.join filler (Text.splitOn sep t) = t.mapText fun c ↦ if c = sep then filler else [c] := by
  induction t with
  | nil => rfl
  | cons c t ih =>
    obtain ⟨piece, rest, hs⟩ := exists_cons_of_ne_nil (Text.splitOn_ne_nil sep t)
    rw [Text.mapText, flatMap_cons, ← Text.mapText, ← ih, Text.splitOn, hs]
    split
    · rw [Text.join_cons_cons, nil_append]
    · cases rest with
      | nil => rw [Text.join_singleton, Text.join_singleton]; rfl
      | cons next rest => rw [Text.join_cons_cons]; rfl

theorem splitOn_eq_pair_iff {t : Text} :
    Text.splitOn star t = [front, back] ↔ t = front ++ star :: back ∧ star ∉ front ∧ star ∉ back := by
  constructor
  · intro h
    have hplain (piece) (hpiece : piece ∈ [front, back]) : star ∉ piece :=
      Text.notMem_of_mem_splitOn (h ▸ hpiece)
    refine ⟨?_, hplain _ (by simp), hplain _ (by simp)⟩
    have hjoin := join_splitOn star [star] t
    rw [h] at hjoin
    have hsame : (t.mapText fun c ↦ if c = star then [star] else [c]) = t := by
      rw [Text.mapText, flatMap_congr fun c _ ↦ show _ = [c] by split <;> simp_all]
      exact flatMap_singleton' t
    simpa [hsame, Text.join] using hjoin.symm
  · rintro ⟨rfl, hfront, hback⟩
    rw [Text.splitOn_append hfront, Text.splitOn_of_notMem hback]

/-- A field is a **pattern** when its name has exactly one star. -/
theorem ofField?_eq_some_iff {field : Text × Json} {p : Pattern} :
    Pattern.ofField? field = some p ↔
      field.1 = p.front ++ star :: p.back ∧ star ∉ p.front ∧ star ∉ p.back ∧ field.2 = p.target := by
  rw [← and_assoc, ← and_assoc, and_assoc (a := field.1 = _), ← splitOn_eq_pair_iff]
  unfold Pattern.ofField?
  constructor
  · intro h
    split at h
    · next hsplit =>
      cases h
      exact ⟨hsplit, rfl⟩
    · cases h
  · rintro ⟨hsplit, htarget⟩
    have hsplit' : field.1.splitOn (.scalar '*') = [p.front, p.back] := hsplit
    rw [hsplit', htarget]

theorem drop_take_between (front middle back : Text) :
    ((front ++ middle ++ back).take ((front ++ middle ++ back).length - back.length)).drop
      front.length = middle := by
  have hlength : (front ++ middle ++ back).length - back.length = (front ++ middle).length := by
    rw [length_append, Nat.add_sub_cancel]
  rw [hlength, take_left, drop_left]

/-- What the star **matches** is what lies between the two ends, which may not overlap. -/
theorem match?_eq_some_iff {p : Pattern} :
    p.match? subpath = some middle ↔ subpath = p.front ++ middle ++ p.back := by
  unfold Pattern.match?
  constructor
  · intro h
    split at h
    · next hends =>
      simp only [Bool.and_eq_true, List.isPrefixOf_iff_prefix, isSuffixOf_iff_suffix,
        decide_eq_true_eq] at hends
      obtain ⟨⟨⟨rest, rfl⟩, hback⟩, hlength⟩ := hends
      rw [length_append] at hlength
      obtain ⟨between, rfl⟩ : p.back <:+ rest :=
        suffix_of_suffix_length_le hback (suffix_append _ _) (by omega)
      rw [← append_assoc, drop_take_between] at h
      rw [Option.some.inj h, append_assoc]
    · cases h
  · rintro rfl
    rw [drop_take_between]
    have hback : p.back <:+ p.front ++ middle ++ p.back := suffix_append _ _
    simp only [append_assoc] at hback ⊢
    simp [hback]

/-! ### The pattern that is taken -/

/-- The **pattern that is taken** for a subpath: of the patterns that match, those before it have
shorter fronts, and those after it no longer ones. -/
def Picked (fields : List (Text × Json)) (subpath : Text) (value : Json)
    (front middle back : Text) : Prop :=
  ∃ key before after, fields = before ++ (key, value) :: after ∧
    Fits subpath key front middle back ∧
    (∀ f ∈ before, ∀ front' middle' back', Fits subpath f.1 front' middle' back' →
      front'.length < front.length) ∧
    ∀ f ∈ after, ∀ front' middle' back', Fits subpath f.1 front' middle' back' →
      front'.length ≤ front.length

/-- The match of a subpath with a field. -/
def matchField? (subpath : Text) (field : Text × Json) : Option (Pattern × Text) :=
  (Pattern.ofField? field).bind fun p ↦ (p.match? subpath).map (p, ·)

theorem matchField?_eq_some_iff {field : Text × Json} {p : Pattern} :
    matchField? subpath field = some (p, middle) ↔
      Fits subpath field.1 p.front middle p.back ∧ field.2 = p.target := by
  have h : matchField? subpath field = some (p, middle) ↔
      Pattern.ofField? field = some p ∧ p.match? subpath = some middle := by
    simp only [matchField?, bind_eq_some_iff, map_eq_some_iff, Prod.mk.injEq]
    constructor
    · rintro ⟨p', hp', middle', hmiddle, rfl, rfl⟩
      exact ⟨hp', hmiddle⟩
    · rintro ⟨hp, hmiddle⟩
      exact ⟨p, hp, middle, hmiddle, rfl, rfl⟩
  rw [h, ofField?_eq_some_iff, match?_eq_some_iff]
  constructor
  · rintro ⟨⟨hkey, hfront, hback, hvalue⟩, hsubpath⟩
    exact ⟨⟨hkey, hfront, hback, hsubpath⟩, hvalue⟩
  · rintro ⟨⟨hkey, hfront, hback, hsubpath⟩, hvalue⟩
    exact ⟨⟨hkey, hfront, hback, hvalue⟩, hsubpath⟩

theorem exists_fits_iff {field : Text × Json} :
    (∃ front middle back, Fits subpath field.1 front middle back) ↔
      (matchField? subpath field).isSome = true := by
  rw [isSome_iff_exists]
  constructor
  · rintro ⟨front, middle, back, h⟩
    exact ⟨(⟨front, back, field.2⟩, middle), matchField?_eq_some_iff.2 ⟨h, rfl⟩⟩
  · rintro ⟨⟨p, middle⟩, h⟩
    exact ⟨p.front, middle, p.back, (matchField?_eq_some_iff.1 h).1⟩

theorem bestMatch?_eq_foldl (fields : List (Text × Json)) (subpath : Text) :
    bestMatch? fields subpath = (fields.filterMap (matchField? subpath)).foldl better none := by
  rw [bestMatch?, filterMap_filterMap]
  rfl

section Better

variable {b : Pattern × Text} {found before after : List (Pattern × Text)}

theorem better_of_lt {best : Option (Pattern × Text)}
    (h : ∀ a ∈ best, a.1.front.length < b.1.front.length) : better best b = some b := by
  cases best with
  | none => rfl
  | some a => rw [better, if_pos (h a rfl)]

/-- What is no better **changes nothing**. -/
theorem foldl_better_of_le (h : ∀ a ∈ after, a.1.front.length ≤ b.1.front.length) :
    after.foldl better (some b) = some b := by
  induction after with
  | nil => rfl
  | cons a after ih =>
    have ha := h a mem_cons_self
    rw [foldl_cons, better, if_neg (by omega),
      ih fun c hc ↦ h c (mem_cons_of_mem _ hc)]

theorem mem_of_foldl_better {start : Option (Pattern × Text)}
    (h : b ∈ found.foldl better start) : b ∈ start ∨ b ∈ found := by
  induction found generalizing start with
  | nil => exact .inl h
  | cons a found ih =>
    rcases ih h with h | h
    · cases start with
      | none => exact .inr (mem_cons.2 (.inl (mem_some.1 h).symm))
      | some c =>
        rw [better] at h
        split at h
        · exact .inr (mem_cons.2 (.inl (mem_some.1 h).symm))
        · exact .inl h
    · exact .inr (mem_cons_of_mem _ h)

/-- A match that is **the first of the best**: better than all before it and no worse than all after
it. -/
def FirstBest (found : List (Pattern × Text)) (b : Pattern × Text) : Prop :=
  ∃ before after, found = before ++ b :: after ∧
    (∀ a ∈ before, a.1.front.length < b.1.front.length) ∧
    ∀ a ∈ after, a.1.front.length ≤ b.1.front.length

theorem exists_firstBest (h : found ≠ []) : ∃ b, FirstBest found b := by
  induction found with
  | nil => exact absurd rfl h
  | cons x found ih =>
    rcases eq_or_ne found [] with rfl | hne
    · exact ⟨x, [], [], rfl, by simp, by simp⟩
    · obtain ⟨b, before, after, rfl, hbefore, hafter⟩ := ih hne
      by_cases hlt : x.1.front.length < b.1.front.length
      · exact ⟨b, x :: before, after, rfl, forall_mem_cons.2 ⟨hlt, hbefore⟩, hafter⟩
      · refine ⟨x, [], before ++ b :: after, rfl, by simp, fun a ha ↦ ?_⟩
        rcases mem_append.1 ha with ha | ha
        · have := hbefore a ha
          omega
        · rcases mem_cons.1 ha with rfl | ha
          · omega
          · have := hafter a ha
            omega

/-- The **first of the best** is found. -/
theorem foldl_better_eq_some_iff : found.foldl better none = some b ↔ FirstBest found b := by
  have hmpr {b : Pattern × Text} (h : FirstBest found b) : found.foldl better none = some b := by
    obtain ⟨before, after, rfl, hbefore, hafter⟩ := h
    rw [foldl_append, foldl_cons, better_of_lt, foldl_better_of_le hafter]
    intro a ha
    exact hbefore a ((mem_of_foldl_better ha).resolve_left (by simp))
  refine ⟨fun h ↦ ?_, hmpr⟩
  have hne : found ≠ [] := by
    rintro rfl
    cases h
  obtain ⟨c, hc⟩ := exists_firstBest hne
  obtain rfl : b = c := Option.some.inj (h.symm.trans (hmpr hc))
  exact hc

end Better

/-- The pattern that is taken, as it is **found**. -/
theorem bestMatch?_eq_some_iff {p : Pattern} :
    bestMatch? fields subpath = some (p, middle) ↔
      Picked fields subpath p.target p.front middle p.back := by
  have hcompare (r : Nat → Prop) {fs : List (Text × Json)} :
      (∀ a ∈ fs.filterMap (matchField? subpath), r a.1.front.length) ↔
        ∀ f ∈ fs, ∀ front' middle' back', Fits subpath f.1 front' middle' back' →
          r front'.length := by
    constructor
    · intro h f hf front' middle' back' hfits
      exact h (⟨front', back', f.2⟩, middle')
        (mem_filterMap.2 ⟨f, hf, matchField?_eq_some_iff.2 ⟨hfits, rfl⟩⟩)
    · rintro h ⟨q, m⟩ ha
      obtain ⟨f, hf, hmatch⟩ := mem_filterMap.1 ha
      exact h f hf _ _ _ (matchField?_eq_some_iff.1 hmatch).1
  rw [bestMatch?_eq_foldl, foldl_better_eq_some_iff]
  constructor
  · rintro ⟨before, after, hfound, hbefore, hafter⟩
    obtain ⟨fs, gs, rfl, rfl, hgs⟩ := filterMap_eq_append_iff.1 hfound
    obtain ⟨skipped, field, rest, rfl, hskipped, hmatch, rfl⟩ := filterMap_eq_cons_iff.1 hgs
    obtain ⟨hfits, htarget⟩ := matchField?_eq_some_iff.1 hmatch
    refine ⟨field.1, fs ++ skipped, rest, by rw [← htarget, append_assoc], hfits,
      (hcompare (· < p.front.length)).1 fun a ha ↦ hbefore a ?_,
      (hcompare (· ≤ p.front.length)).1 hafter⟩
    rw [filterMap_append, filterMap_eq_nil_iff.2 hskipped, append_nil] at ha
    exact ha
  · rintro ⟨key, before, after, rfl, hfits, hbefore, hafter⟩
    refine ⟨before.filterMap (matchField? subpath), after.filterMap (matchField? subpath), ?_,
      (hcompare (· < p.front.length)).2 hbefore, (hcompare (· ≤ p.front.length)).2 hafter⟩
    rw [filterMap_append, filterMap_cons_some (matchField?_eq_some_iff.2 ⟨hfits, rfl⟩)]

theorem bestMatch?_eq_none_iff : bestMatch? fields subpath = none ↔
    ¬ ∃ f ∈ fields, ∃ front middle back, Fits subpath f.1 front middle back := by
  rw [bestMatch?_eq_foldl]
  constructor
  · rintro h ⟨f, hf, hfits⟩
    obtain ⟨a, ha⟩ := isSome_iff_exists.1 (exists_fits_iff.1 hfits)
    obtain ⟨b, hb⟩ := exists_firstBest (ne_nil_of_mem (mem_filterMap.2 ⟨f, hf, ha⟩))
    rw [foldl_better_eq_some_iff.2 hb] at h
    cases h
  · intro h
    rw [filterMap_eq_nil_iff.2 fun f hf ↦ ?_]
    · rfl
    · cases hmatch : matchField? subpath f with
      | none => rfl
      | some a => exact absurd ⟨f, hf, exists_fits_iff.2 (by rw [hmatch]; rfl)⟩ h

/-! ### Results -/

/-- The path that a pattern leads to: that of its target with every star filled in, if it is not
empty. -/
def filled (value : Json) (middle : Text) : Option Text :=
  ((target? value).filter (!·.isEmpty)).map (fill middle)

theorem matchFields_of_lookup (h : fields.lookup subpath = some value) :
    matchFields fields subpath = target? value := by
  rw [matchFields, h]

theorem matchFields_of_picked (hlookup : fields.lookup subpath = none)
    (h : Picked fields subpath value front middle back) :
    matchFields fields subpath = filled value middle := by
  have hbest : bestMatch? fields subpath = some (⟨front, back, value⟩, middle) :=
    bestMatch?_eq_some_iff.2 h
  rw [matchFields, hlookup]
  simp only [hbest, filled, bind_eq_bind, bind_some]
  cases target? value with
  | none => rfl
  | some path => cases path <;> rfl

theorem matchFields_of_none (hlookup : fields.lookup subpath = none)
    (h : ¬ ∃ f ∈ fields, ∃ front middle back, Fits subpath f.1 front middle back) :
    matchFields fields subpath = none := by
  rw [matchFields, hlookup]
  simp only [bestMatch?_eq_none_iff.2 h]
  rfl

theorem exists_picked (h : ∃ f ∈ fields, ∃ front middle back, Fits subpath f.1 front middle back) :
    ∃ value front middle back, Picked fields subpath value front middle back := by
  cases hbest : bestMatch? fields subpath with
  | none => exact absurd h (bestMatch?_eq_none_iff.1 hbest)
  | some b => exact ⟨_, _, _, _, bestMatch?_eq_some_iff.1 hbest⟩

end Exports

open Exports

variable {fields : List (Text × Json)}

theorem matchExports_object (hsubpaths : ∃ f ∈ fields, f.1.head? = some (.scalar '.'))
    (subpath : Text) : matchExports (.object fields) subpath = matchFields fields subpath := by
  rw [matchExports, if_pos]
  obtain ⟨f, hf, hhead⟩ := hsubpaths
  refine any_eq_true.2 ⟨f, hf, ?_⟩
  obtain ⟨rest, hrest⟩ := head?_eq_some_iff.1 hhead
  rw [hrest]
  rfl

/-- **Where a subpath leads** in exports that name subpaths. A subpath that is named leads to the
first leaf of its target. Any other leads through the pattern that matches it with the longest front,
the first of several: the star matches the one text that fits, and the subpath leads to the first
leaf of the pattern's target with that text for every star, unless there is no leaf or it is empty.
What matches no pattern leads nowhere. -/
theorem matchExports_exactly (hsubpaths : ∃ f ∈ fields, f.1.head? = some (.scalar '.'))
    (subpath : Text) :
    (∀ value, fields.lookup subpath = some value →
      First (Leaf value) (matchExports (.object fields) subpath)) ∧
    (fields.lookup subpath = none →
      ((∃ f ∈ fields, ∃ front middle back, Fits subpath f.1 front middle back) →
        ∃ value front middle back, Picked fields subpath value front middle back ∧
          (∀ text, front ++ text ++ back = subpath ↔ text = middle) ∧
          ∃ leaf, First (Leaf value) leaf ∧
            matchExports (.object fields) subpath
              = (leaf.filter (!·.isEmpty)).map fun path ↦
                Text.join middle (Text.splitOn star path)) ∧
      ((¬ ∃ f ∈ fields, ∃ front middle back, Fits subpath f.1 front middle back) →
        matchExports (.object fields) subpath = none)) := by
  rw [matchExports_object hsubpaths]
  refine ⟨fun value hvalue ↦ ?_, fun hlookup ↦ ⟨fun hfits ↦ ?_, matchFields_of_none hlookup⟩⟩
  · rw [matchFields_of_lookup hvalue]
    exact first_target? value
  · obtain ⟨value, front, middle, back, hpicked⟩ := exists_picked hfits
    refine ⟨value, front, middle, back, hpicked, fun text ↦ ?_, target? value, first_target? value,
      ?_⟩
    · obtain ⟨_, _, _, _, hfits, _⟩ := hpicked
      rw [hfits.subpath_eq, List.append_left_inj, List.append_right_inj]
    · rw [matchFields_of_picked hlookup hpicked, filled]
      exact congrArg (Option.map · _) (funext fun path ↦ (join_splitOn star middle path).symm)

/-- Exports with two patterns that match some subpaths both, and a target with dead branches. -/
def nestedExports : List (Text × Json) :=
  [("./*", .string "./lib/*.js"),
    ("./a*b", .array [.object [("worker", .string "./w.js")],
      .object [("node", .array []), ("default", .string "./dist/*/*.js")]])]

/-- At a subpath that matches two patterns. -/
theorem matchExports_nested :
    matchExports (.object nestedExports) "./axb" = some ("./dist/x/x.js" : Text) ∧
    ∃ value front middle back, Picked nestedExports "./axb" value front middle back ∧
      ∃ leaf, First (Leaf value) leaf ∧
        matchExports (.object nestedExports) "./axb"
          = (leaf.filter (!·.isEmpty)).map fun path ↦ Text.join middle (Text.splitOn star path) := by
  refine ⟨by rfl, ?_⟩
  have hsubpaths : ∃ f ∈ nestedExports, f.1.head? = some (.scalar '.') :=
    ⟨_, List.mem_cons_self, rfl⟩
  have hfits : Fits "./axb" "./*" "./" "axb" "" := ⟨rfl, by decide, by decide, rfl⟩
  obtain ⟨value, front, middle, back, hpicked, -, hleaf⟩ :=
    ((matchExports_exactly hsubpaths "./axb").2 rfl).1 ⟨_, List.mem_cons_self, _, _, _, hfits⟩
  exact ⟨value, front, middle, back, hpicked, hleaf⟩

end ScriptTree
