import ScriptTree.Proofs.MarkupCall

/-!
# Line feeds

How many line feeds a text has decides on which line the text after it stands. Line feeds are
counted **piece by piece**: a join has those of its pieces, a range of a script has at least those
of nodes that lie in it one after the other, and quoted texts and numerals have none.

## Main results

* `lineFeeds_join`, `lineFeeds_quote`, `lineFeeds_stringLiteral`, `lineFeeds_numeral`: texts that
  are written.
* `Transform.sum_lineFeeds_le`: nodes in a range have no more line feeds than the range.
* `Transform.lineFeeds_gapText`: assignments of properties add none.
-/

namespace ScriptTree

open List Node

/-- The number of **line feeds** in a text. -/
def lineFeeds (t : Text) : Nat := t.occurrences (.scalar '\n')

@[simp] theorem lineFeeds_nil : lineFeeds [] = 0 := rfl

@[simp] theorem lineFeeds_append (s t : Text) : lineFeeds (s ++ t) = lineFeeds s + lineFeeds t :=
  count_append

theorem lineFeeds_eq_zero_iff {t : Text} : lineFeeds t = 0 ↔ .scalar '\n' ∉ t :=
  count_eq_zero

theorem lineFeeds_cons_of_ne {c : CodePoint} (h : c ≠ .scalar '\n') (t : Text) :
    lineFeeds (c :: t) = lineFeeds t := count_cons_of_ne h

@[simp] theorem lineFeeds_ofChars (l : List Char) : lineFeeds (Text.ofChars l) = l.count '\n' := by
  induction l with
  | nil => rfl
  | cons c l ih =>
    have hcons : Text.ofChars (c :: l) = .scalar c :: Text.ofChars l := rfl
    rw [hcons, lineFeeds, Text.occurrences, count_cons, count_cons]
    have ih : List.count (.scalar '\n') (Text.ofChars l) = l.count '\n' := ih
    simp [ih]

@[simp] theorem lineFeeds_ofString (s : String) :
    lineFeeds (Text.ofString s) = s.toList.count '\n' := lineFeeds_ofChars _

@[simp] theorem lineFeeds_replicate (n : Nat) :
    lineFeeds (List.replicate n (.scalar '\n')) = n := count_replicate_self

/-- A text put together of pieces has the line feeds **of the pieces**. -/
theorem lineFeeds_flatMap {α : Type} (l : List α) (f : α → Text) :
    lineFeeds (l.flatMap f) = (l.map (lineFeeds <| f ·)).sum := by
  induction l with
  | nil => rfl
  | cons a l ih => rw [flatMap_cons, lineFeeds_append, ih, map_cons, sum_cons]

theorem lineFeeds_join {sep : Text} (hsep : lineFeeds sep = 0) (ts : List Text) :
    lineFeeds (Text.join sep ts) = (ts.map lineFeeds).sum := by
  induction ts with
  | nil => rfl
  | cons t ts ih =>
    cases ts with
    | nil => simp [Text.join]
    | cons u us =>
      have hcons : Text.join sep (t :: u :: us) = t ++ (sep ++ Text.join sep (u :: us)) := by
        simp [Text.join]
      rw [hcons, lineFeeds_append, lineFeeds_append, ih, hsep, Nat.zero_add,
        map_cons (a := t), sum_cons]

/-- Pieces that are **left out**, or have no more line feeds than allowed. -/
theorem sum_lineFeeds_filterMap_le {α : Type} {l : List α} {f : α → Option Text} {g : α → Nat}
    (h : ∀ a ∈ l, ∀ t, f a = some t → lineFeeds t ≤ g a) :
    ((l.filterMap f).map lineFeeds).sum ≤ (l.map g).sum := by
  induction l with
  | nil => simp
  | cons a l ih =>
    have ih := ih fun b hb ↦ h b (mem_cons_of_mem _ hb)
    cases hfa : f a with
    | none =>
      rw [filterMap_cons_none hfa, map_cons, sum_cons]
      omega
    | some t =>
      have ht := h a mem_cons_self t hfa
      rw [filterMap_cons_some hfa, map_cons, map_cons, sum_cons, sum_cons]
      omega

/-! ### Texts that are written on one line -/

theorem lineFeeds_mapText {f : CodePoint → Text} (h : ∀ c, lineFeeds (f c) = 0) (t : Text) :
    lineFeeds (t.mapText f) = 0 := by
  rw [Text.mapText, lineFeeds_flatMap]
  simp [h]

theorem not_mem_toDigits (base n : Nat) : '\n' ∉ Nat.toDigits base n := by
  have hcore (fuel n : Nat) (ds : List Char) (hds : '\n' ∉ ds) :
      '\n' ∉ Nat.toDigitsCore base fuel n ds := by
    induction fuel generalizing n ds with
    | zero => simpa [Nat.toDigitsCore] using hds
    | succ fuel ih =>
      have hcons : '\n' ∉ Nat.digitChar (n % base) :: ds := by
        have hdigit : Nat.digitChar (n % base) ≠ '\n' := Nat.digitChar_ne '\n' (by decide)
        exact not_mem_cons_of_ne_of_not_mem hdigit.symm hds
      rw [Nat.toDigitsCore]
      split
      · exact hcons
      · exact ih _ _ hcons
  exact hcore _ _ _ (by simp)

theorem count_toDigits (base n : Nat) : (Nat.toDigits base n).count '\n' = 0 :=
  count_eq_zero.2 (not_mem_toDigits base n)

theorem lineFeeds_unitEscape (n : Nat) : lineFeeds (JsonString.unitEscape n) = 0 := by
  rw [JsonString.unitEscape, JsonString.hexDigits]
  simp [count_toDigits, count_replicate]

/-- A text in **double quotes** has no line feeds. -/
theorem lineFeeds_quote (ascii : Bool) (t : Text) : lineFeeds (JsonString.quote ascii t) = 0 := by
  have hpoint (c : CodePoint) : lineFeeds (JsonString.point ascii c) = 0 := by
    unfold JsonString.point
    split
    case h_8 hn _ _ _ _ =>
      dsimp only
      split
      · rw [lineFeeds_flatMap]
        simp [lineFeeds_unitEscape]
      · rw [lineFeeds_cons_of_ne hn, lineFeeds_nil]
    all_goals rfl
  rw [JsonString.quote, cons_append, lineFeeds_cons_of_ne (by decide), lineFeeds_append,
    lineFeeds_mapText hpoint]
  rfl

/-- A **string literal** has no line feeds. -/
theorem lineFeeds_stringLiteral (t : Text) : lineFeeds (stringLiteral t) = 0 := by
  have hquote : quoteFor t ≠ .scalar '\n' := by
    unfold quoteFor
    split <;> decide
  have hpoint (c : CodePoint) : lineFeeds (quotedPoint (quoteFor t) c) = 0 := by
    unfold quotedPoint
    split
    · rfl
    split
    · rfl
    split
    · rfl
    split
    · rw [lineFeeds_cons_of_ne (by decide), lineFeeds_cons_of_ne hquote, lineFeeds_nil]
    · next hn _ _ => rw [lineFeeds_cons_of_ne hn, lineFeeds_nil]
  rw [stringLiteral, cons_append, lineFeeds_cons_of_ne hquote, lineFeeds_append,
    lineFeeds_mapText hpoint, lineFeeds_cons_of_ne hquote]
  rfl

theorem lineFeeds_ofInt (n : Int) : lineFeeds (Text.ofInt n) = 0 := by
  have hnat (n : Nat) : lineFeeds (Text.ofNat n) = 0 := by
    rw [Text.ofNat, lineFeeds_ofChars, count_toDigits]
  cases n with
  | ofNat n => exact hnat n
  | negSucc n => rw [Text.ofInt, lineFeeds_cons_of_ne (by decide), hnat]

theorem not_mem_layout {digits : List Char} (h : '\n' ∉ digits) (point : Int) :
    '\n' ∉ Double.layout digits point := by
  have htake (n : Nat) : '\n' ∉ digits.take n := fun hm ↦ h (mem_of_mem_take hm)
  have hdrop (n : Nat) : '\n' ∉ digits.drop n := fun hm ↦ h (mem_of_mem_drop hm)
  have htail : '\n' ∉ digits.tail := fun hm ↦ h (mem_of_mem_tail hm)
  have hexponent (e : Int) : '\n' ∉ Double.exponentText e := by
    unfold Double.exponentText
    split <;> simp [not_mem_toDigits]
  unfold Double.layout
  split_ifs <;> simp [h, htake, hdrop, htail, hexponent]

/-- A **numeral** has no line feeds. -/
theorem lineFeeds_numeral {n : Number} {t : Text} (h : n.text = .ok t) : lineFeeds t = 0 := by
  have hinteger {n : Int} {t : Text} (h : Number.integerText n = .ok t) : lineFeeds t = 0 := by
    unfold Number.integerText at h
    split at h
    · cases h
    · exact Except.ok.inj h ▸ lineFeeds_ofInt n
  have hdouble (d : Double) : lineFeeds d.text = 0 := by
    have hshortest (units : Nat) : '\n' ∉ (Double.shortest units).1 := by
      rw [Double.shortest]
      intro hm
      have hm := (dropWhile_sublist _).mem (mem_reverse.1 hm)
      exact not_mem_toDigits _ _ (mem_reverse.1 hm)
    unfold Double.text
    split
    · split <;> rfl
    · rw [lineFeeds_ofChars, count_eq_zero]
      split <;> simp [not_mem_layout (hshortest _)]
    · split <;> rfl
    · rfl
  cases n with
  | integer n => exact hinteger h
  | double d =>
    rw [Number.text] at h
    split at h
    · exact hinteger h
    · exact Except.ok.inj h ▸ hdouble d

namespace Transform

open Utf8 (IsBoundary size)
open Node (preorderAll)

/-! ### Ranges of a script -/

section Ranges

variable {tree : SourceTree} {cs : List Char} {d : Dialect} {n m : Node} {ns : List Node}
  {a b c : Nat}

theorem lineFeeds_scriptText_append (hab : a ≤ b) (hbc : b ≤ c) :
    lineFeeds (scriptText cs a c)
      = lineFeeds (scriptText cs a b) + lineFeeds (scriptText cs b c) := by
  simp only [scriptText, between, Utf8.window_append cs hab hbc, map_append, lineFeeds_ofChars,
    count_append]

/-- A range **inside** another has no more line feeds. -/
theorem lineFeeds_scriptText_le {a' b' : Nat} (ha : a ≤ a') (hb : b' ≤ b) (hab : a' ≤ b') :
    lineFeeds (scriptText cs a' b') ≤ lineFeeds (scriptText cs a b) := by
  rw [lineFeeds_scriptText_append ha (hab.trans hb), lineFeeds_scriptText_append hab hb]
  omega

/-- A node **below** another has no more line feeds. -/
theorem lineFeeds_ownText_le (hplaced : n.Placed cs) (hm : m ∈ n.preorder) :
    lineFeeds (ownText cs m) ≤ lineFeeds (ownText cs n) := by
  obtain ⟨hstart, hinside, hstop⟩ := hplaced.of_mem_preorder hm
  exact lineFeeds_scriptText_le hstart hstop hinside.start_le_stop

/-- Nodes in a range have **together** no more line feeds than the range. -/
theorem sum_lineFeeds_le (h : Node.PlacedIn cs a b ns) :
    (ns.map fun n ↦ lineFeeds (ownText cs n)).sum ≤ lineFeeds (scriptText cs a b) := by
  induction ns generalizing a with
  | nil => simp
  | cons n ns ih =>
    obtain ⟨hstart, hplaced, hrest⟩ := h
    have hwidth := hplaced.start_le_stop
    rw [map_cons, sum_cons,
      lineFeeds_scriptText_append hstart (hwidth.trans hrest.le),
      lineFeeds_scriptText_append hwidth hrest.le, ownText]
    have := ih hrest
    omega

/-- A **name** has no line feeds. -/
theorem lineFeeds_ownText_of_name (h : n.Shaped cs) (hkind : n.kind = "identifier") :
    lineFeeds (ownText cs n) = 0 := by
  obtain ⟨piece, hpiece, hstop, hline⟩ := h.line hkind
  have hbetween : between cs n.start n.stop = piece := by
    rw [hpiece.between_eq (Nat.le_of_eq hstop.symm), ← hstop, between]
    simp [Utf8.window_of_le (Nat.le_refl n.stop)]
  rw [ownText, scriptText, hbetween, lineFeeds_ofChars, count_eq_zero]
  exact hline

end Ranges

/-! ### Assignments of properties -/

section Assignments

variable {tree : SourceTree} {cs : List Char} {d : Dialect} {n : Node}

theorem lineFeeds_propertyAssignments {names : List Text} (h : ∀ t ∈ names, lineFeeds t = 0) :
    lineFeeds (propertyAssignments names) = 0 := by
  rw [propertyAssignments, lineFeeds_join (by simp), map_map, sum_eq_zero_iff]
  intro k hk
  obtain ⟨t, ht, rfl⟩ := mem_map.1 hk
  simp [h t ht]

/-- What is put in for a constructor has no line feeds, since properties have the names of
**parameters**. -/
theorem lineFeeds_of_propertyInsertion (hformed : tree.Formed d cs) (hn : n ∈ tree.root.preorder)
    {i : Int × Text} (h : propertyInsertion tree n = some i) : lineFeeds i.2 = 0 := by
  have hnames {parameters : Node} {names : List Text}
      (hparameters : parameters ∈ tree.root.preorder)
      (h : propertyNames tree parameters = .ok names) : ∀ t ∈ names, lineFeeds t = 0 := by
    have hname (p) (hp : p ∈ parameters.parts.filterMap fun p ↦
        if (p.kind == "required_parameter" || p.kind == "optional_parameter") && isProperty p then
          (p.child? .pattern).filter (·.kind == "identifier")
        else none) : p ∈ tree.root.preorder ∧ p.kind = "identifier" := by
      obtain ⟨q, hq, hp⟩ := mem_filterMap.1 hp
      split at hp
      · obtain ⟨hchild, hkind⟩ := Option.filter_eq_some_iff.1 hp
        have hp := mem_preorder_trans
          (mem_preorder_of_mem_children (mem_children_of_parts hq))
          (mem_preorder_of_mem_children (mem_of_find?_eq_some hchild))
        exact ⟨mem_preorder_trans hparameters hp, by simpa using hkind⟩
      · cases hp
    rw [propertyNames, mapM_eq_ok fun p hp ↦
      nodeText_eq_ownText hformed.toOver (hname p hp).1] at h
    intro t ht
    cases h
    obtain ⟨p, hp, rfl⟩ := mem_map.1 ht
    exact lineFeeds_ownText_of_name (hformed.shaped p (hname p hp).1) (hname p hp).2
  unfold propertyInsertion at h
  split at h
  · split at h
    · next parameters _ _ hparameters _ =>
      split at h
      · next hpropertyNames =>
        split at h
        · cases h
          rw [lineFeeds_append, lineFeeds_propertyAssignments (hnames (mem_preorder_of_child hn
            (mem_of_find?_eq_some hparameters))
            hpropertyNames)]
          rfl
        · cases h
      · cases h
    · cases h
  · cases h

theorem lineFeeds_assignedAt (hformed : tree.Formed d cs) (offset : Nat) :
    lineFeeds (assignedAt tree offset) = 0 := by
  rw [assignedAt, lineFeeds_flatMap, sum_eq_zero_iff]
  intro k hk
  obtain ⟨i, hi, rfl⟩ := mem_map.1 hk
  obtain ⟨n, hn, hinsertion⟩ := mem_filterMap.1 (mem_of_mem_filter hi)
  exact lineFeeds_of_propertyInsertion hformed (mem_preorder_of_reached hn) hinsertion

/-- In a range without nodes **no line feed is added**. -/
theorem lineFeeds_gapText (hformed : tree.Formed d cs) (a b : Nat) :
    lineFeeds (gapText tree cs a b) = lineFeeds (scriptText cs a b) := by
  rw [gapText, spliced, scriptText, between, lineFeeds_flatMap, lineFeeds_ofChars]
  induction Utf8.window cs a b with
  | nil => rfl
  | cons q qs ih =>
    have hone : lineFeeds [.scalar q.2] = [q.2].count '\n' := lineFeeds_ofChars [q.2]
    have hcount : (List.map (·.2) (q :: qs)).count '\n'
        = [q.2].count '\n' + (qs.map (·.2)).count '\n' := by
      rw [← count_append]
      rfl
    rw [map_cons, sum_cons, ih, splicedAt_nil, lineFeeds_append,
      lineFeeds_assignedAt hformed, hone, hcount, Nat.zero_add]

end Assignments

end Transform

end ScriptTree
