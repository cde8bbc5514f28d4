import ScriptTree.Proofs.Growth

/-!
# Rules that read tidily

A rule reads **tidily** when the nodes that it gives are laid out from where it starts to where it
ends. Every operator on rules keeps this, so a rule of the grammar is tidy because the rules that it
is made of are: tidiness is a class, and its instances follow the operators.

Two things are handed along. Many rules go on from nodes that were read before, and what they give
starts with these; and the kinds of the nodes that a rule makes are collected, until all of them are
seen to be ordinary and can be forgotten.

## Main results

* `Rule.Tidy.prune`: kinds of which nothing needs to be known are forgotten.
-/

namespace ScriptTree

open List
open Utf8 (IsBoundary size)
open Node (Laid laid_nil laid_leaf Known isOrdinary known_of_isOrdinary typedKinds)

namespace Rule

variable {α β : Type} {d : Dialect} {cs : List Char} {before : List Node} {r s : Rule}
  {rs : List Rule} {step f : List Node → Rule} {made made' kept : List String} {kind : String}
  {fills fills' : Bool}

/-! ### Steps of reading -/

theorem bind_eq_some {p : Parse α} {f : α → Parse β} {c c' : Cursor} {x : β}
    (h : (p >>= f) c = some (x, c')) : ∃ a c₁, p c = some (a, c₁) ∧ f a c₁ = some (x, c') := by
  obtain ⟨⟨a, c₁⟩, hp, hf⟩ := Option.bind_eq_some_iff.1 h
  exact ⟨a, c₁, hp, hf⟩

theorem pure_eq_some {a b : α} {c c' : Cursor} (h : (pure a : Parse α) c = some (b, c')) :
    a = b ∧ c = c' := Prod.mk.inj (Option.some.inj h)

section After

variable {c : Cursor} {x : α × Cursor}

/-- Reading goes on **after** a gap. -/
theorem after_gap {f : Unit → Parse α} (h : (gap >>= f) c = some x) : f () c.skipGap = some x := h

theorem after_offset {f : Nat → Parse α} (h : (offset >>= f) c = some x) :
    f c.offset c = some x := h

theorem after_upcoming {f : List Char → Parse α} (h : (upcoming >>= f) c = some x) :
    f c.skipGap.rest c = some x := h

theorem after_immediate {f : List Char → Parse α} (h : (immediate >>= f) c = some x) :
    f c.rest c = some x := h

theorem after_get {f : Cursor → Parse α} (h : (get >>= f) c = some x) : f c c = some x := h

theorem after_set {f : PUnit → Parse α} {c₁ : Cursor} (h : (set c₁ >>= f) c = some x) :
    f ⟨⟩ c₁ = some x := h

end After

theorem orElse_eq_some {p q : Parse α} {c : Cursor} {x : α × Cursor}
    (h : (p <|> q) c = some x) : p c = some x ∨ q c = some x := by
  have h : (p c <|> q c) = some x := h
  cases hp : p c with
  | none => exact .inr (by simpa [hp] using h)
  | some y => exact .inl (by simpa [hp] using h)

/-- Reading that **stays** in its place. -/
class Still (p : Parse α) : Prop where
  eq : ∀ {c c' : Cursor} {a : α}, p c = some (a, c') → c = c'

instance : Still (get : Parse Cursor) := ⟨fun h ↦ (Prod.mk.inj (Option.some.inj h)).2⟩

instance {a : α} : Still (pure a : Parse α) := ⟨fun h ↦ (pure_eq_some h).2⟩

instance {p : Parse α} {f : α → Parse β} [hp : Still p] [hf : ∀ a, Still (f a)] :
    Still (p >>= f) := by
  refine ⟨fun h ↦ ?_⟩
  obtain ⟨a, c₁, hpc, hfc⟩ := bind_eq_some h
  rw [hp.eq hpc, (hf a).eq hfc]

instance : Still upcoming := by
  unfold upcoming
  infer_instance

instance : Still immediate := by
  unfold immediate
  infer_instance

instance : Still peekWord := by
  unfold peekWord
  infer_instance

/-! ### Tidy rules -/

/-- A rule that **reads tidily**: going on from nodes that are laid out up to where it starts, it
gives nodes that are laid out up to where it ends. The kinds `made` are left open. A rule that goes
on from something gives something, and so does one with `fills`. -/
class Tidy (d : Dialect) (cs : List Char) (before : List Node) (r : Rule)
    (made : outParam (List String)) (fills : outParam Bool) : Prop where
  run : ∀ {ks : List String} {a : Nat} {c c' : Cursor} {nodes : List Node}, made ⊆ ks →
    c.At cs → Laid d cs ks a c.offset before → r c = some (nodes, c') →
      c'.At cs ∧ c.offset ≤ c'.offset ∧ Laid d cs ks a c'.offset nodes
  ne_nil : ∀ {c c' : Cursor} {nodes : List Node}, r c = some (nodes, c') →
    fills = true ∨ before ≠ [] → nodes ≠ []

/-- Rules that all read tidily: whether all of them give something, and whether one of them does. -/
class TidyAll (d : Dialect) (cs : List Char) (before : List Node) (rs : List Rule)
    (made : outParam (List String)) (every one : outParam Bool) : Prop where
  each : ∀ r ∈ rs, Tidy d cs before r made every
  exists_ne_nil : one = true → ∃ r ∈ rs, ∀ {c c' : Cursor} {nodes : List Node},
    r c = some (nodes, c') → nodes ≠ []

variable {c c' : Cursor} {nodes : List Node} {ks : List String} {named : Bool}

/-- What a tidy rule reads from its own place on. -/
theorem Tidy.run_nil [h : Tidy d cs [] r made fills] (hks : made ⊆ ks) (hc : c.At cs)
    (hrun : r c = some (nodes, c')) :
    c'.At cs ∧ c.offset ≤ c'.offset ∧ Laid d cs ks c.offset c'.offset nodes :=
  h.run hks hc (laid_nil (GapTo.refl hc.isBoundary)) hrun

theorem Tidy.mono (h : Tidy d cs before r made fills) (hmade : made ⊆ made')
    (hfills : fills' = true → fills = true) : Tidy d cs before r made' fills' :=
  ⟨fun hks ↦ h.run fun _ hk ↦ hks (hmade hk), fun hrun hne ↦ h.ne_nil hrun (hne.imp_left hfills)⟩

/-- Kinds of which all is known are **forgotten**. -/
theorem Tidy.forget (h : Tidy d cs before r (kept ++ made) fills)
    (hmade : ∀ m : Node, m.kind ∈ made → m.Known d cs) (hempty : "" ∉ made) :
    Tidy d cs before r kept fills := by
  refine ⟨fun {ks a c c' nodes} hks hc hbefore hrun ↦ ?_, h.ne_nil⟩
  have hsub : kept ++ made ⊆ ks ++ made := fun k hk ↦
    mem_append.2 ((mem_append.1 hk).imp_left fun h ↦ hks h)
  have hmono : Laid d cs (ks ++ made) a c.offset before :=
    hbefore.mono fun _ hk ↦ mem_append_left _ hk
  obtain ⟨hc', hle, hlaid⟩ := h.run hsub hc hmono hrun
  exact ⟨hc', hle, hlaid.of_append hmade hempty⟩

/-- **Ordinary** kinds are forgotten. -/
theorem Tidy.prune [h : Tidy d cs before r made fills]
    (hmade : (made.all (fun k ↦ isOrdinary k || kept.contains k) && (!fills' || fills)) = true :=
      by decide) : Tidy d cs before r kept fills' := by
  obtain ⟨hmade, hfills⟩ := Bool.and_eq_true_iff.1 hmade
  have hcover : made ⊆ kept ++ made.filter isOrdinary := fun k hk ↦ by
    have := all_eq_true.1 hmade k hk
    rcases Bool.or_eq_true_iff.1 this with hord | hkept
    · exact mem_append_right _ (mem_filter.2 ⟨hk, hord⟩)
    · exact mem_append_left _ (by simpa using hkept)
  refine (h.mono hcover (by revert hfills; cases fills' <;> simp)).forget
    (fun m hm ↦ known_of_isOrdinary (mem_filter.1 hm).2) fun hempty ↦ ?_
  exact absurd (mem_filter.1 hempty).2 (by decide)

/-- What a rule that makes ordinary kinds reads from its own place on. -/
theorem Tidy.run_ordinary (d : Dialect) [h : Tidy d cs [] r made fills] (ks : List String)
    (hmade : made.all isOrdinary = true) (hc : c.At cs) (hrun : r c = some (nodes, c')) :
    c'.At cs ∧ c.offset ≤ c'.offset ∧ Laid d cs ks c.offset c'.offset nodes := by
  have hpruned : Tidy d cs [] r [] false := h.prune (by simpa using hmade)
  exact hpruned.run_nil (nil_subset _) hc hrun

/-- What a rule that fills gives. -/
theorem Tidy.ne_nil_of_run (d : Dialect) (cs : List Char) [h : Tidy d cs [] r made fills]
    (hfills : fills = true) (hrun : r c = some (nodes, c')) : nodes ≠ [] :=
  h.ne_nil hrun (.inl hfills)

/-! ### Choices and conditions -/

instance : Tidy d cs before failure [] true := ⟨fun _ _ _ h ↦ (nomatch h), fun h ↦ (nomatch h)⟩

instance : Tidy d cs before (pure before) [] false := by
  refine ⟨fun _ hc hbefore h ↦ ?_, fun h hne ↦ ?_⟩
  · obtain ⟨rfl, rfl⟩ := pure_eq_some h
    exact ⟨hc, Nat.le_refl _, hbefore⟩
  · obtain ⟨rfl, rfl⟩ := pure_eq_some h
    simpa using hne

instance [hr : Tidy d cs before r made fills] [hs : Tidy d cs before s made' fills'] :
    Tidy d cs before (r <|> s) (made ++ made') (fills && fills') := by
  refine ⟨fun hks hc hbefore h ↦ ?_, fun h hne ↦ ?_⟩
  · rcases orElse_eq_some h with h | h
    · exact hr.run (fun _ hk ↦ hks (mem_append_left _ hk)) hc hbefore h
    · exact hs.run (fun _ hk ↦ hks (mem_append_right _ hk)) hc hbefore h
  · rw [Bool.and_eq_true] at hne
    rcases orElse_eq_some h with h | h
    · exact hr.ne_nil h (hne.imp_left And.left)
    · exact hs.ne_nil h (hne.imp_left And.right)

instance {p : Prop} [Decidable p] [hr : Tidy d cs before r made fills]
    [hs : Tidy d cs before s made' fills'] :
    Tidy d cs before (if p then r else s) (made ++ made') (fills && fills') := by
  split
  · exact hr.mono (subset_append_left _ _) fun h ↦ (Bool.and_eq_true_iff.1 h).1
  · exact hs.mono (subset_append_right _ _) fun h ↦ (Bool.and_eq_true_iff.1 h).2

instance : TidyAll d cs before [] [] true false := ⟨by simp, by simp⟩

instance {every one : Bool} [hr : Tidy d cs before r made fills]
    [hrs : TidyAll d cs before rs made' every one] :
    TidyAll d cs before (r :: rs) (made ++ made') (fills && every) (fills || one) := by
  refine ⟨fun t ht ↦ ?_, fun h ↦ ?_⟩
  · rcases mem_cons.1 ht with rfl | ht
    · exact hr.mono (subset_append_left _ _) fun h ↦ (Bool.and_eq_true_iff.1 h).1
    · exact (hrs.each t ht).mono (subset_append_right _ _)
        fun h ↦ (Bool.and_eq_true_iff.1 h).2
  · rcases Bool.or_eq_true_iff.1 h with h | h
    · exact ⟨r, mem_cons_self, fun hrun ↦ hr.ne_nil hrun (.inl h)⟩
    · obtain ⟨t, ht, hne⟩ := hrs.exists_ne_nil h
      exact ⟨t, mem_cons_of_mem _ ht, hne⟩

theorem tidy_alt : ∀ {rs : List Rule}, (∀ r ∈ rs, Tidy d cs before r made fills) →
    Tidy d cs before (alt rs) made fills
  | [], _ => by
    rw [alt]
    exact Tidy.mono inferInstance (nil_subset _) fun _ ↦ rfl
  | r :: rs, h => by
    rw [alt]
    have hr := h r mem_cons_self
    have hrs := tidy_alt fun t ht ↦ h t (mem_cons_of_mem _ ht)
    exact Tidy.mono inferInstance (append_subset.2 ⟨List.Subset.refl _, List.Subset.refl _⟩)
      fun h ↦ by rw [h]; rfl

instance {every one : Bool} [h : TidyAll d cs before rs made every one] :
    Tidy d cs before (alt rs) made every := tidy_alt h.each

instance [Tidy d cs [] r made fills] : Tidy d cs [] (opt r) made false := by
  have h : Tidy d cs [] (r <|> pure []) (made ++ []) (fills && false) := inferInstance
  rw [append_nil] at h
  exact h.mono (List.Subset.refl _) (by simp)

/-! ### Going on from what was read -/

/-- What is seen without moving may decide how reading goes on. -/
theorem Tidy.of_still {p : Parse α} {f : α → Rule} [hp : Still p]
    (h : ∀ a, Tidy d cs before (f a) made fills) : Tidy d cs before (p >>= f) made fills := by
  refine ⟨fun hks hc hbefore hrun ↦ ?_, fun hrun hne ↦ ?_⟩
  · obtain ⟨a, c₁, hpc, hfc⟩ := bind_eq_some hrun
    obtain rfl := hp.eq hpc
    exact (h a).run hks hc hbefore hfc
  · obtain ⟨a, c₁, hpc, hfc⟩ := bind_eq_some hrun
    exact (h a).ne_nil hfc hne

instance {p : Parse α} {f : α → Rule} [Still p] [h : ∀ a, Tidy d cs before (f a) made fills] :
    Tidy d cs before (p >>= f) made fills := .of_still h

/-- A rule may **go on** from what another one gives. -/
theorem Tidy.bind (hr : Tidy d cs before r made fills)
    (hf : ∀ nodes, Tidy d cs nodes (f nodes) made' fills') :
    Tidy d cs before (r >>= f) (made ++ made') (fills || fills') := by
  refine ⟨fun hks hc hbefore hrun ↦ ?_, fun hrun hne ↦ ?_⟩
  · obtain ⟨nodes, c₁, hrc, hfc⟩ := bind_eq_some hrun
    obtain ⟨hc₁, hle₁, hlaid₁⟩ :=
      hr.run (fun _ hk ↦ hks (mem_append_left _ hk)) hc hbefore hrc
    obtain ⟨hc', hle, hlaid⟩ :=
      (hf nodes).run (fun _ hk ↦ hks (mem_append_right _ hk)) hc₁ hlaid₁ hfc
    exact ⟨hc', hle₁.trans hle, hlaid⟩
  · obtain ⟨nodes, c₁, hrc, hfc⟩ := bind_eq_some hrun
    rw [Bool.or_eq_true] at hne
    rcases hne with (h | h) | h
    · exact (hf nodes).ne_nil hfc (.inr (hr.ne_nil hrc (.inl h)))
    · exact (hf nodes).ne_nil hfc (.inl h)
    · exact (hf nodes).ne_nil hfc (.inr (hr.ne_nil hrc (.inr h)))

instance [hr : Tidy d cs before r made fills]
    [hf : ∀ nodes, Tidy d cs nodes (f nodes) made' fills'] :
    Tidy d cs before (r >>= f) (made ++ made') (fills || fills') := hr.bind hf

/-- Nodes are put **after** those read before. -/
instance [hr : Tidy d cs [] r made fills] :
    Tidy d cs before (r >>= fun nodes ↦ pure (before ++ nodes)) made fills := by
  refine ⟨fun hks hc hbefore hrun ↦ ?_, fun hrun hne ↦ ?_⟩
  · obtain ⟨nodes, c₁, hrc, hfc⟩ := bind_eq_some hrun
    obtain ⟨rfl, rfl⟩ := pure_eq_some hfc
    obtain ⟨hc', hle, hlaid⟩ := hr.run_nil hks hc hrc
    exact ⟨hc', hle, hbefore.append hlaid⟩
  · obtain ⟨nodes, c₁, hrc, hfc⟩ := bind_eq_some hrun
    obtain ⟨rfl, rfl⟩ := pure_eq_some hfc
    rcases hne with h | h
    · exact append_ne_nil_of_right_ne_nil _ (hr.ne_nil hrc (.inl h))
    · exact append_ne_nil_of_left_ne_nil h _

theorem seq_cons_eq_some (h : seq (r :: rs) c = some (nodes, c')) :
    ∃ first c₁ rest, r c = some (first, c₁) ∧ seq rs c₁ = some (rest, c')
      ∧ nodes = first ++ rest := by
  obtain ⟨first, c₁, hfirst, h⟩ := bind_eq_some h
  obtain ⟨rest, c₂, hrest, h⟩ := bind_eq_some h
  obtain ⟨rfl, rfl⟩ := pure_eq_some h
  exact ⟨first, c₁, rest, hfirst, hrest, rfl⟩

theorem tidy_seq : ∀ {rs : List Rule}, (∀ r ∈ rs, Tidy d cs [] r made fills) →
    Tidy d cs [] (seq rs) made false
  | [], _ => by
    rw [seq]
    exact Tidy.mono inferInstance (nil_subset _) (by simp)
  | r :: rs, h => by
    rw [seq]
    have hr := h r mem_cons_self
    have hrs := tidy_seq fun t ht ↦ h t (mem_cons_of_mem _ ht)
    exact Tidy.mono inferInstance (append_subset.2 ⟨List.Subset.refl _, List.Subset.refl _⟩)
      (by simp)

/-- Rules of which **one** gives something give something. -/
theorem seq_ne_nil (hr : r ∈ rs)
    (hne : ∀ {c c' : Cursor} {nodes : List Node}, r c = some (nodes, c') → nodes ≠ [])
    (h : seq rs c = some (nodes, c')) : nodes ≠ [] := by
  induction rs generalizing c nodes with
  | nil => simp at hr
  | cons s rs ih =>
    obtain ⟨first, c₁, rest, hfirst, hrest, rfl⟩ := seq_cons_eq_some h
    rcases mem_cons.1 hr with rfl | hr
    · exact append_ne_nil_of_left_ne_nil (hne hfirst) _
    · exact append_ne_nil_of_right_ne_nil _ (ih hr hrest)

instance {every one : Bool} [h : TidyAll d cs [] rs made every one] :
    Tidy d cs [] (seq rs) made one := by
  refine ⟨(tidy_seq h.each).run, fun hrun hone ↦ ?_⟩
  obtain ⟨r, hr, hne⟩ := h.exists_ne_nil (by simpa using hone)
  exact seq_ne_nil hr hne hrun

/-! ### Places and looking ahead -/

/-- A rule may start after a **gap**. -/
theorem Tidy.run_gap [h : Tidy d cs [] r made fills] {a : Nat} {c₁ : Cursor}
    (hks : made ⊆ ks) (hc : c.At cs) (hgap : c.Gap c₁)
    (hbefore : Laid d cs ks a c.offset []) (hrun : r c₁ = some (nodes, c')) :
    c'.At cs ∧ c.offset ≤ c'.offset ∧ Laid d cs ks a c'.offset nodes := by
  have hlaid₁ : Laid d cs ks a c₁.offset [] :=
    laid_nil (GapTo.trans hbefore.grown (GapTo.of_gap hc hgap))
  obtain ⟨hc', hle, hlaid⟩ := h.run hks (hgap.at hc) hlaid₁ hrun
  exact ⟨hc', Nat.le_trans hgap.offset_le hle, hlaid⟩

/-- A rule that **gives nothing** and stays where it is. -/
theorem tidy_of_eq_nil (h : ∀ {c c' : Cursor} {nodes : List Node}, r c = some (nodes, c') →
    [] = nodes ∧ c = c') : Tidy d cs [] r [] false := by
  refine ⟨fun _ hc hbefore hrun ↦ ?_, by simp⟩
  obtain ⟨rfl, rfl⟩ := h hrun
  exact ⟨hc, Nat.le_refl _, hbefore⟩

instance : Tidy d cs [] (ahead r) [] false := by
  refine tidy_of_eq_nil fun {c c' nodes} hrun ↦ ?_
  replace hrun := after_get hrun
  obtain ⟨nodes', c₃, -, hrun⟩ := bind_eq_some hrun
  exact pure_eq_some hrun

instance : Tidy d cs [] (notAhead r) [] false := by
  refine tidy_of_eq_nil fun {c c' nodes} hrun ↦ ?_
  unfold notAhead at hrun
  split at hrun
  · simp at hrun
  · exact Prod.mk.inj (Option.some.inj hrun)

instance {b : Bool} : Tidy d cs [] (guard b) [] false := by
  unfold guard
  exact .prune

instance : Tidy d cs [] sameLine [] false := by
  unfold sameLine
  infer_instance

/-! ### Tokens -/

/-- What taking characters gives. -/
theorem take_eq_some {n : Nat} (h : take kind named n c = some (nodes, c')) :
    [⟨kind, named, false, none, c.offset, (c.advance n).offset, []⟩] = nodes ∧ c.advance n = c' :=
  Prod.mk.inj (Option.some.inj h)

/-- A **leaf** was taken after a gap: of at least one character, unless the empty word may be read. -/
structure TakesLeaf (made : List String) (c c' : Cursor) (nodes : List Node) (kind : String)
    (named : Bool) (n : Nat) (c₁ : Cursor) : Prop where
  gap : c.Gap c₁
  kind_mem : kind ∈ made
  pos : "" ∉ made → 0 < n ∧ c₁.rest ≠ []
  taken : take kind named n c₁ = some (nodes, c')

/-- A leaf that was taken is **laid out**. -/
theorem TakesLeaf.laid {n a : Nat} {c₁ : Cursor}
    (h : TakesLeaf made c c' nodes kind named n c₁) (hks : made ⊆ ks)
    (hc : c.At cs) (hbefore : Laid d cs ks a c.offset []) :
    c'.At cs ∧ c.offset ≤ c'.offset ∧ Laid d cs ks a c'.offset nodes := by
  obtain ⟨rfl, rfl⟩ := take_eq_some h.taken
  have hc₁ := h.gap.at hc
  have hle := c₁.offset_le_advance n
  refine ⟨hc₁.advance n, Nat.le_trans h.gap.offset_le hle,
    laid_leaf (GapTo.trans hbefore.grown (GapTo.of_gap hc h.gap)) (hc₁.advance n).isBoundary
      hle (.inl (hks h.kind_mem)) fun hempty ↦ ?_⟩
  obtain ⟨hpos, hrest⟩ := h.pos fun hk ↦ hempty (hks hk)
  obtain ⟨x, xs, hrest⟩ := exists_cons_of_ne_nil hrest
  exact Cursor.offset_lt_advance hrest hpos

/-- A rule that takes a leaf is **tidy**. -/
theorem tidy_of_takesLeaf (h : ∀ {c c' : Cursor} {nodes : List Node}, r c = some (nodes, c') →
    ∃ kind named n c₁, TakesLeaf made c c' nodes kind named n c₁) : Tidy d cs [] r made true := by
  refine ⟨fun {ks a c c' nodes} hks hc hbefore hrun ↦ ?_, fun hrun _ ↦ ?_⟩
  · obtain ⟨kind, named, n, c₁, hleaf⟩ := h hrun
    exact hleaf.laid hks hc hbefore
  · obtain ⟨kind, named, n, c₁, hleaf⟩ := h hrun
    obtain ⟨rfl, -⟩ := take_eq_some hleaf.taken
    simp

/-- A rule that looks at the characters from the next token on and **takes** some of them. -/
theorem tidy_of_upcoming {length : List Char → Nat} {p : List Char → Prop}
    [DecidablePred p] (hpos : "" ∉ made → ∀ l, p l → 0 < length l ∧ l ≠ []) (hkind : kind ∈ made) :
    Tidy d cs [] (do
      let l ← upcoming
      if p l then
        gap
        take kind named (length l)
      else failure) made true := by
  refine tidy_of_takesLeaf fun {c c' nodes} hrun ↦ ?_
  replace hrun := after_upcoming hrun
  split at hrun
  · next hp =>
    exact ⟨_, _, _, _, c.gap_skipGap, hkind, fun hempty ↦ hpos hempty _ hp, hrun⟩
  · cases hrun

/-- A rule that looks at the characters from its place on and **takes** some of them. -/
theorem tidy_of_immediate {length : List Char → Nat} {p : List Char → Prop}
    [DecidablePred p] (hpos : "" ∉ made → ∀ l, p l → 0 < length l ∧ l ≠ []) (hkind : kind ∈ made) :
    Tidy d cs [] (do
      let l ← immediate
      if p l then take kind named (length l) else failure) made true := by
  refine tidy_of_takesLeaf fun {c c' nodes} hrun ↦ ?_
  replace hrun := after_immediate hrun
  split at hrun
  · next hp => exact ⟨_, _, _, c, .refl c, hkind, fun hempty ↦ hpos hempty _ hp, hrun⟩
  · cases hrun

/-- A word that is read has characters. -/
theorem word_pos {w : String} {n : Nat} {l : List Char} (hw : w ≠ "")
    (h : String.ofList (l.take n) = w) : 0 < w.length ∧ l ≠ [] := by
  subst h
  refine ⟨?_, fun hnil ↦ hw (by simp [hnil])⟩
  rw [String.length_ofList, length_pos_iff]
  exact fun hnil ↦ hw (by rw [hnil])

instance {w : String} : Tidy d cs [] (word w) [w] true := by
  have h : Tidy d cs [] (do
      let l ← upcoming
      if String.ofList (l.take (Lexeme.identifier l)) == w then
        gap
        take w false w.length
      else failure) [w] true :=
    tidy_of_upcoming (fun hempty l hl ↦ word_pos (by simpa using hempty) (beq_iff_eq.1 hl))
      mem_cons_self
  exact h

instance {w : String} : Tidy d cs [] (leafWord kind w) [kind, w] true := by
  have h : Tidy d cs [] (do
      let l ← upcoming
      if String.ofList (l.take (Lexeme.identifier l)) == w then
        gap
        take kind true w.length
      else failure) [kind, w] true :=
    tidy_of_upcoming (fun hempty l hl ↦ word_pos (by rintro rfl; simp at hempty) (beq_iff_eq.1 hl))
      mem_cons_self
  exact h

/-- One of some words as a node of its own. -/
theorem tidy_leafWord_of_mem {ws : List String} {w : String} (hw : ws.contains w = true)
    (hkinds : (kind :: ws).all isOrdinary = true) : Tidy d cs [] (leafWord kind w) [] true := by
  have hkinds := all_eq_true.1 hkinds
  have hkind := hkinds kind mem_cons_self
  have hword := hkinds w (mem_cons_of_mem _ (by simpa using hw))
  exact .prune (by simp [hkind, hword])

instance {ws : List String} : Tidy d cs [] (oneWord ws) ws true := by
  refine .of_still fun seen ↦ ?_
  split
  · next h => exact Tidy.mono inferInstance (by simpa using h) (by simp)
  · exact Tidy.mono inferInstance (by simp) (by simp)

/-- A mark that is read has characters. -/
theorem mark_pos {p : String} {l : List Char} (hp : p ≠ "") (h : p.toList.isPrefixOf l = true) :
    0 < p.length ∧ l ≠ [] := by
  have hne : p.toList ≠ [] := by simpa using hp
  refine ⟨?_, ?_⟩
  · exact length_pos_iff.2 hne
  rintro rfl
  exact hne (by simpa using h)

instance {p : String} : Tidy d cs [] (mark p) [p] true :=
  tidy_of_upcoming
    (fun hempty _ hl ↦ mark_pos (by rintro rfl; simp at hempty) (Bool.and_eq_true_iff.1 hl).1)
    mem_cons_self

instance {p : String} : Tidy d cs [] (bareMark p) [p] true :=
  tidy_of_upcoming (fun hempty _ hl ↦ mark_pos (by rintro rfl; simp at hempty) hl)
    mem_cons_self

/-- What a mark gives whatever follows it. -/
theorem bareMark_eq_some {p : String} (h : bareMark p c = some (nodes, c')) :
    p.toList.isPrefixOf c.skipGap.rest = true
      ∧ take p false p.length c.skipGap = some (nodes, c') := by
  replace h := after_upcoming h
  split at h
  · next hmark =>
    exact ⟨hmark, h⟩
  · cases h

/-- A token that is **measured**, and is there if its length is not zero. -/
theorem tidy_of_length (length : List Char → Nat) {p : List Char → Prop}
    [DecidablePred p] (hnil : length [] = 0) (hp : ∀ l, length l = 0 → p l) :
    Tidy d cs [] (do
      let l ← upcoming
      if p l then failure
      else
        gap
        take kind named (length l)) [kind] true := by
  have h : Tidy d cs [] (do
      let l ← upcoming
      if ¬ p l then
        gap
        take kind named (length l)
      else failure) [kind] true := by
    refine tidy_of_upcoming (fun _ l hl ↦ ?_) mem_cons_self
    have hpos : length l ≠ 0 := fun hzero ↦ hl (hp l hzero)
    exact ⟨Nat.pos_of_ne_zero hpos, fun h ↦ hpos (h ▸ hnil)⟩
  simpa only [ite_not] using h

instance : Tidy d cs [] (anyName kind) [kind] true := by
  have h : Tidy d cs [] (do
      let l ← upcoming
      if Lexeme.identifier l = 0 then failure
      else
        gap
        take kind true (Lexeme.identifier l)) [kind] true :=
    tidy_of_length _ rfl fun _ h ↦ h
  exact h

instance : Tidy d cs [] (name kind) [kind] true :=
  tidy_of_length Lexeme.identifier rfl fun l h ↦ by simp [h]

/-- A rule that takes a **name** of one line. -/
theorem tidy_of_takesName (h : ∀ {c c' : Cursor} {nodes : List Node}, r c = some (nodes, c') →
    ∃ n c₁, c.Gap c₁ ∧ 0 < n ∧ c₁.rest ≠ [] ∧ '\n' ∉ c₁.rest.take n ∧
      take Node.nameKind true n c₁ = some (nodes, c')) : Tidy d cs [] r [] true := by
  refine ⟨fun {ks a c c' nodes} _ hc hbefore hrun ↦ ?_, fun hrun _ ↦ ?_⟩
  all_goals
    obtain ⟨n, c₁, hgap, hpos, hrest, hline, htake⟩ := h hrun
    obtain ⟨rfl, rfl⟩ := take_eq_some htake
  case refine_2 => simp
  have hc₁ := hgap.at hc
  obtain ⟨before, hcs, hoffset⟩ := hc₁.split
  have hshaped : Node.IsLine cs
      ⟨Node.nameKind, true, false, none, c₁.offset, (c₁.advance n).offset, []⟩ := by
    refine ⟨c₁.rest.take n, ⟨before, c₁.rest.drop n, ?_, hoffset⟩, rfl, hline⟩
    rw [append_assoc, take_append_drop]
    exact hcs
  refine ⟨hc₁.advance n, Nat.le_trans hgap.offset_le (c₁.offset_le_advance n),
    laid_leaf (GapTo.trans hbefore.grown (GapTo.of_gap hc hgap)) (hc₁.advance n).isBoundary
      (c₁.offset_le_advance n) (.inr ⟨Node.fine_of_isFree (by simp only; decide), ?_⟩) fun _ ↦ ?_⟩
  · exact ⟨fun _ ↦ hshaped, fun hkind ↦ absurd hkind (by simp only; decide), by simp⟩
  · obtain ⟨x, xs, hrest⟩ := exists_cons_of_ne_nil hrest
    exact Cursor.offset_lt_advance hrest hpos

/-- An escape by number stands on **one line**. -/
theorem not_mem_take_numberEscape (l : List Char) : '\n' ∉ l.take (Lexeme.numberEscape l) := by
  have hhex {ds : List Char} : '\n' ∉ ds.takeWhile Lexeme.isHex := fun h ↦
    absurd (mem_takeWhile_imp h) (by decide)
  unfold Lexeme.numberEscape
  split
  · next rest =>
    dsimp only
    split
    · next h =>
      -- The digits stand between braces.
      obtain ⟨-, hbrace⟩ := Bool.and_eq_true_iff.1 h
      have htake : rest.take ((rest.takeWhile Lexeme.isHex).length + 1)
          = rest.takeWhile Lexeme.isHex ++ ['\x7d'] := by
        rw [take_add_one, Cursor.take_length_takeWhile, ← head?_drop, beq_iff_eq.1 hbrace]
        rfl
      simp [htake, hhex]
    · simp
  · next rest _ =>
    split
    · next h =>
      have htake : (rest.take 4).takeWhile Lexeme.isHex = rest.take 4 := by
        refine (List.takeWhile_prefix _).eq_of_length_le ?_
        rw [beq_iff_eq.1 h]
        exact length_take_le _ _
      have hline : '\n' ∉ rest.take 4 := htake ▸ hhex
      simp [hline]
    · simp
  · simp

theorem not_mem_take_nameFrom {first : Bool} {skip : Nat} {l : List Char}
    (h : '\n' ∉ l.take skip) : '\n' ∉ l.take (Lexeme.nameFrom first skip l) := by
  induction l generalizing first skip with
  | nil => simp
  | cons x xs ih =>
    cases skip with
    | succ n =>
      rw [take_succ_cons, mem_cons, not_or] at h
      rw [Lexeme.nameFrom, Nat.add_comm, take_succ_cons, mem_cons, not_or]
      exact ⟨h.1, ih h.2⟩
    | zero =>
      rw [Lexeme.nameFrom]
      cases helement : Lexeme.nameElement first (x :: xs) with
      | zero => simp
      | succ k =>
        -- An element of a name is a character or an escape.
        have hfirst : x ≠ '\n' ∧ '\n' ∉ xs.take k := by
          unfold Lexeme.nameElement at helement
          split at helement
          · next heq => cases heq
          · next rest heq =>
            obtain ⟨rfl, rfl⟩ := List.cons.inj heq
            split at helement
            · cases helement
            · obtain rfl := Nat.succ.inj helement
              exact ⟨by decide, not_mem_take_numberEscape _⟩
          · next heq =>
            obtain ⟨rfl, rfl⟩ := List.cons.inj heq
            split at helement
            · next hname =>
              obtain rfl := Nat.succ.inj helement
              refine ⟨?_, by simp⟩
              rintro rfl
              exact absurd (Bool.and_eq_true_iff.1 hname).1 (by decide)
            · cases helement
        show '\n' ∉ (x :: xs).take (1 + Lexeme.nameFrom false k xs)
        rw [Nat.add_comm, take_succ_cons, mem_cons, not_or]
        exact ⟨hfirst.1.symm, ih hfirst.2⟩

/-- A name stands on **one line**. -/
theorem not_mem_take_identifier (l : List Char) : '\n' ∉ l.take (Lexeme.identifier l) :=
  not_mem_take_nameFrom (by simp)

instance (priority := high) : Tidy d cs [] (anyName "identifier") [] true := by
  refine tidy_of_takesName fun {c c' nodes} hrun ↦ ?_
  obtain ⟨n, c₁, hlength, hrun⟩ := bind_eq_some hrun
  obtain ⟨rfl, rfl⟩ : Lexeme.identifier c.skipGap.rest = n ∧ c = c₁ :=
    Prod.mk.inj (Option.some.inj hlength)
  split at hrun
  · cases hrun
  · next hne =>
    exact ⟨_, _, c.gap_skipGap, Nat.pos_of_ne_zero hne, fun hnil ↦ hne (by rw [hnil]; rfl),
      not_mem_take_identifier _, hrun⟩

instance : Tidy d cs [] identifier [] true := by
  refine tidy_of_takesName fun {c c' nodes} hrun ↦ ?_
  replace hrun := after_upcoming hrun
  split at hrun
  · cases hrun
  · next hne =>
    obtain ⟨hne, -⟩ : _ ∧ _ := by simpa using hne
    exact ⟨_, _, c.gap_skipGap, Nat.pos_of_ne_zero hne, fun hnil ↦ hne (by rw [hnil]; rfl),
      not_mem_take_identifier _, hrun⟩

instance : Tidy d cs [] privateName [] true := by
  have h : Tidy d cs [] privateName ["private_property_identifier"] true :=
    tidy_of_length Lexeme.privateName rfl fun _ h ↦ h
  exact h.prune

instance : Tidy d cs [] number [] true := by
  have h : Tidy d cs [] number ["number"] true :=
    tidy_of_length Lexeme.number rfl fun _ h ↦ h
  exact h.prune

theorem tidy_lexeme {length? : List Char → Option Nat}
    (hpos : ∀ l n, length? l = some n → 0 < n ∧ l ≠ []) :
    Tidy d cs [] (lexeme kind length?) [kind] true := by
  refine tidy_of_takesLeaf fun {c c' nodes} hrun ↦ ?_
  replace hrun := after_upcoming hrun
  cases hn : length? c.skipGap.rest with
  | none =>
    rw [hn] at hrun
    cases hrun
  | some n =>
    simp only [hn] at hrun
    exact ⟨_, _, _, _, c.gap_skipGap, mem_cons_self, fun _ ↦ hpos _ n hn, hrun⟩

theorem string?_pos {l : List Char} {n : Nat} (h : Lexeme.string? l = some n) :
    0 < n ∧ l ≠ [] := by
  unfold Lexeme.string? at h
  split at h
  · split at h
    · obtain ⟨m, -, rfl⟩ := Option.map_eq_some_iff.1 h
      simp
    · simp at h
  · simp at h

instance : Tidy d cs [] string [] true := by
  have h : Tidy d cs [] string ["string"] true := tidy_lexeme fun _ _ h ↦ string?_pos h
  exact h.prune

instance : Tidy d cs [] regex [] true := by
  refine (tidy_lexeme fun l n h ↦ ?_ : Tidy d cs [] regex ["regex"] true).prune
  unfold Lexeme.regex? at h
  split at h
  · split at h
    · simp at h
    · obtain ⟨m, -, rfl⟩ := Option.map_eq_some_iff.1 h
      exact ⟨by omega, by simp⟩
  · simp at h

/-! ### Repetition -/

/-- **Another time** round a repetition, or its end. -/
theorem manyFrom_eq_some {fuel : Nat} (h : manyFrom r (fuel + 1) c = some (nodes, c')) :
    [] = nodes ∧ c = c' ∨ ∃ first c₁ rest, r c = some (first, c₁)
      ∧ manyFrom r fuel c₁ = some (rest, c') ∧ nodes = first ++ rest := by
  replace h := after_get (after_offset h)
  cases hr : r c with
  | none =>
    rw [hr] at h
    exact .inl (pure_eq_some h)
  | some x =>
    obtain ⟨first, c₂⟩ := x
    simp only [hr] at h
    split at h
    · exact .inl (pure_eq_some h)
    · replace h := after_set h
      obtain ⟨rest, c₃, hrest, h⟩ := bind_eq_some h
      obtain ⟨rfl, rfl⟩ := pure_eq_some h
      exact .inr ⟨first, c₂, rest, rfl, hrest, rfl⟩

theorem tidy_manyFrom [hr : Tidy d cs [] r made fills] (fuel : Nat) :
    Tidy d cs [] (manyFrom r fuel) made false := by
  induction fuel with
  | zero =>
    rw [manyFrom]
    exact Tidy.mono inferInstance (nil_subset _) (by simp)
  | succ fuel ih =>
    refine ⟨fun {ks a c c' nodes} hks hc hbefore hrun ↦ ?_, by simp⟩
    rcases manyFrom_eq_some hrun with ⟨rfl, rfl⟩ | ⟨first, c₁, rest, hfirst, hrest, rfl⟩
    · exact ⟨hc, Nat.le_refl _, hbefore⟩
    · obtain ⟨hc₁, hle₁, hlaid₁⟩ := hr.run hks hc hbefore hfirst
      obtain ⟨hc', hle, hlaid⟩ := ih.run_nil hks hc₁ hrest
      exact ⟨hc', hle₁.trans hle, hlaid₁.append hlaid⟩

instance [Tidy d cs [] r made fills] : Tidy d cs [] (many r) made false := by
  exact .of_still fun c ↦ tidy_manyFrom _

/-- **Another step** of a chain, or its end. -/
theorem chainFrom_eq_some {fuel : Nat} (h : chainFrom step (fuel + 1) before c = some (nodes, c')) :
    before = nodes ∧ c = c' ∨ ∃ longer c₁, step before c = some (longer, c₁)
      ∧ chainFrom step fuel longer c₁ = some (nodes, c') := by
  replace h := after_get h
  cases hstep : step before c with
  | none =>
    rw [hstep] at h
    exact .inl (pure_eq_some h)
  | some x =>
    obtain ⟨longer, c₂⟩ := x
    simp only [hstep] at h
    split at h
    · exact .inl (pure_eq_some h)
    · exact .inr ⟨longer, c₂, rfl, h⟩

/-- What every time round a repetition gives, **all times** give. -/
theorem forall_mem_manyFrom [hr : Tidy d cs [] r made fills] {P : Node → Prop}
    (hP : ∀ {c c' : Cursor} {nodes : List Node}, c.At cs → r c = some (nodes, c') →
      ∀ n ∈ nodes, P n) {fuel : Nat} (hc : c.At cs)
    (h : manyFrom r fuel c = some (nodes, c')) : ∀ n ∈ nodes, P n := by
  induction fuel generalizing c nodes with
  | zero =>
    obtain ⟨rfl, rfl⟩ := pure_eq_some h
    simp
  | succ fuel ih =>
    rcases manyFrom_eq_some h with ⟨rfl, rfl⟩ | ⟨first, c₁, rest, hfirst, hrest, rfl⟩
    · simp
    · intro n hn
      rcases mem_append.1 hn with hn | hn
      · exact hP hc hfirst n hn
      · exact ih (hr.run_nil (List.Subset.refl _) hc hfirst).1 hrest n hn

theorem tidy_chainFrom [hstep : ∀ nodes, Tidy d cs nodes (step nodes) made fills] (fuel : Nat)
    (before : List Node) : Tidy d cs before (chainFrom step fuel before) made false := by
  induction fuel generalizing before with
  | zero =>
    rw [chainFrom]
    exact Tidy.mono inferInstance (nil_subset _) (by simp)
  | succ fuel ih =>
    refine ⟨fun {ks a c c' nodes} hks hc hbefore hrun ↦ ?_, fun {c c' nodes} hrun hne ↦ ?_⟩
    · rcases chainFrom_eq_some hrun with ⟨rfl, rfl⟩ | ⟨longer, c₁, hlonger, hrun⟩
      · exact ⟨hc, Nat.le_refl _, hbefore⟩
      · obtain ⟨hc₁, hle₁, hlaid₁⟩ := (hstep before).run hks hc hbefore hlonger
        obtain ⟨hc', hle, hlaid⟩ := (ih longer).run hks hc₁ hlaid₁ hrun
        exact ⟨hc', hle₁.trans hle, hlaid⟩
    · have hbefore : before ≠ [] := by simpa using hne
      rcases chainFrom_eq_some hrun with ⟨rfl, rfl⟩ | ⟨longer, c₁, hlonger, hrun⟩
      · exact hbefore
      · exact (ih longer).ne_nil hrun (.inr ((hstep before).ne_nil hlonger (.inr hbefore)))

instance [Tidy d cs before r made fills] [∀ nodes, Tidy d cs nodes (step nodes) made' fills'] :
    Tidy d cs before (chain r step) (made ++ made') fills := by
  unfold chain
  have (nodes : List Node) :
      Tidy d cs nodes (get >>= fun c ↦ chainFrom step c.stepsLeft nodes) made' false :=
    .of_still fun c ↦ tidy_chainFrom _ nodes
  exact Tidy.mono inferInstance (List.Subset.refl _) (by simp)

instance [Tidy d cs [] r made fills] [Tidy d cs [] s made' fills'] :
    Tidy d cs [] (separated s r) (made ++ made') fills := by
  unfold separated
  exact Tidy.mono inferInstance (by simp) (by simp)

instance [Tidy d cs [] r made fills] : Tidy d cs [] (commaSeparated r) ("," :: made) false := by
  unfold commaSeparated
  exact Tidy.mono inferInstance (by simp) (by simp)

instance [Tidy d cs [] r made fills] : Tidy d cs [] (commaList r) ("," :: made) false := by
  unfold commaList
  exact Tidy.mono inferInstance (by simp) (by simp)

/-! ### Nodes -/

/-- What a **node** around a rule consists of. -/
theorem node_eq_some (h : node kind r c = some (nodes, c')) :
    ∃ children, r c.skipGap = some (children, c')
      ∧ nodes = [⟨kind, true, false, none, c.skipGap.offset, c'.offset, children⟩] := by
  replace h := after_offset (after_gap h)
  obtain ⟨children, c₂, hchildren, h⟩ := bind_eq_some h
  obtain ⟨rfl, rfl⟩ := pure_eq_some h
  exact ⟨children, hchildren, rfl⟩

/-- What a node leaves open if what is put into it may give nothing: then the node may be empty. -/
def unlessFilled (fills : Bool) : List String := if fills then [] else [""]

/-- What a rule gives **inside a node** is something, or that is left open. -/
theorem Tidy.ne_nil_inside (h : Tidy d cs before r made fills) (hks : unlessFilled fills ⊆ ks)
    (hrun : r c = some (nodes, c')) (hempty : "" ∉ ks) : nodes ≠ [] := by
  cases fills with
  | true => exact h.ne_nil hrun (.inl rfl)
  | false => exact absurd (hks mem_cons_self) hempty

instance [hr : Tidy d cs [] r made fills] :
    Tidy d cs [] (node kind r) (kind :: (made ++ unlessFilled fills)) true := by
  refine ⟨fun {ks a c c' nodes} hks hc hbefore hrun ↦ ?_, fun hrun _ ↦ ?_⟩
  · obtain ⟨children, hchildren, rfl⟩ := node_eq_some hrun
    obtain ⟨hkind, hmade⟩ := cons_subset.1 hks
    obtain ⟨hmade, hunless⟩ := append_subset.1 hmade
    have hskip := c.gap_skipGap
    obtain ⟨hc', hle, hlaid⟩ := hr.run_nil hmade (hskip.at hc) hchildren
    exact ⟨hc', Nat.le_trans hskip.offset_le hle,
      hlaid.node (GapTo.trans hbefore.grown (GapTo.of_gap hc hskip))
        (hr.ne_nil_inside hunless hchildren) hc'.isBoundary (.inl hkind)⟩
  · obtain ⟨children, hchildren, rfl⟩ := node_eq_some hrun
    simp

/-- A node around nodes that start after a gap. -/
theorem laid_around {a b : Nat} {ns : List Node} (h : Laid d cs ks a b ns)
    (hne : "" ∉ ks → ns ≠ []) (hb : IsBoundary cs b) (hkind : kind ∈ ks) :
    Laid d cs ks a b
      [⟨kind, true, false, none, (ns.head?.map (·.start)).getD b, b, ns⟩] := by
  cases ns with
  | nil => exact laid_leaf h.grown hb (Nat.le_refl _) (.inl hkind) fun hks ↦ absurd rfl (hne hks)
  | cons n ns => exact h.tight.node h.grown.1 hne hb (.inl hkind)

theorem extend_eq_some (h : extend kind before r c = some (nodes, c')) :
    ∃ after, r c = some (after, c') ∧ nodes = [⟨kind, true, false, none,
      ((before ++ after).head?.map (·.start)).getD c'.offset, c'.offset, before ++ after⟩] := by
  obtain ⟨after, c₁, hafter, h⟩ := bind_eq_some h
  obtain ⟨rfl, rfl⟩ := pure_eq_some h
  exact ⟨after, hafter, rfl⟩

instance [hr : Tidy d cs [] r made fills] :
    Tidy d cs before (extend kind before r) (kind :: (made ++ unlessFilled fills)) true := by
  refine ⟨fun {ks a c c' nodes} hks hc hbefore hrun ↦ ?_, fun hrun _ ↦ ?_⟩
  · obtain ⟨after, hafter, rfl⟩ := extend_eq_some hrun
    obtain ⟨hkind, hmade⟩ := cons_subset.1 hks
    obtain ⟨hmade, hunless⟩ := append_subset.1 hmade
    obtain ⟨hc', hle, hlaid⟩ := hr.run_nil hmade hc hafter
    have hne (hempty : "" ∉ ks) : before ++ after ≠ [] :=
      append_ne_nil_of_right_ne_nil before (hr.ne_nil_inside hunless hafter hempty)
    exact ⟨hc', hle, laid_around (hbefore.append hlaid) hne hc'.isBoundary hkind⟩
  · obtain ⟨after, hafter, rfl⟩ := extend_eq_some hrun
    simp

/-- Nodes that get a role before they are extended. -/
instance {role : Role} [Tidy d cs [] r made fills] :
    Tidy d cs before (extend kind (before.map (·.inRole role)) r)
      (kind :: (made ++ unlessFilled fills)) true := by
  have h : Tidy d cs (before.map (·.inRole role))
      (extend kind (before.map (·.inRole role)) r) (kind :: (made ++ unlessFilled fills)) true :=
    inferInstance
  exact ⟨fun hks hc hbefore ↦ h.run hks hc (hbefore.map_inRole role),
    fun hrun _ ↦ h.ne_nil hrun (.inl rfl)⟩

/-- A node around all that was read, put together at the end. -/
instance [hr : Tidy d cs [] r made fills] :
    Tidy d cs before (r >>= fun more ↦ extend kind before (pure more))
      (kind :: (made ++ unlessFilled fills)) true :=
  inferInstanceAs (Tidy d cs before (extend kind before r)
    (kind :: (made ++ unlessFilled fills)) true)

instance {role : Role} [hr : Tidy d cs [] r made fills] :
    Tidy d cs [] (field role r) made fills := by
  refine ⟨fun {ks a c c' nodes} hks hc hbefore hrun ↦ ?_, fun hrun hne ↦ ?_⟩
  · obtain ⟨inner, c₁, hinner, hrun⟩ := bind_eq_some hrun
    obtain ⟨rfl, rfl⟩ := pure_eq_some hrun
    obtain ⟨hc', hle, hlaid⟩ := hr.run hks hc hbefore hinner
    exact ⟨hc', hle, hlaid.map_inRole role⟩
  · obtain ⟨inner, c₁, hinner, hrun⟩ := bind_eq_some hrun
    obtain ⟨rfl, rfl⟩ := pure_eq_some hrun
    simpa using hr.ne_nil hinner hne

/-! ### Ends of statements -/

theorem tidy_semicolonFrom {goesOn signature : Bool} (fuel : Nat) :
    Tidy d cs [] (semicolonFrom d goesOn signature fuel) [] false := by
  induction fuel with
  | zero =>
    rw [semicolonFrom]
    exact Tidy.mono inferInstance (List.Subset.refl _) (by simp)
  | succ fuel ih =>
    refine .of_still fun rest ↦ ?_
    split
    · infer_instance
    · -- What is passed over here is a gap: blanks, and perhaps a comment.
      refine ⟨fun {ks a c c' nodes} hks hc hbefore hrun ↦ ?_, by simp⟩
      replace hrun := after_get hrun
      have hblanks := c.gap_skipBlanks
      cases hn : Cursor.commentLength? c.skipBlanks.rest with
      | some n =>
        simp only [hn] at hrun
        exact ih.run_gap hks hc (hblanks.trans (.comment hn (.refl _))) hbefore hrun
      | none =>
        simp only [hn] at hrun
        have hlast : Tidy d cs [] (do
            let l ← immediate
            if l.head? = some ';' then take ";" false 1 else failure) [";"] true :=
          tidy_of_immediate (fun _ l hl ↦ ⟨by omega, by rintro rfl; simp at hl⟩) mem_cons_self
        have hlast : Tidy d cs [] _ [] true := hlast.prune
        exact hlast.run_gap hks hc hblanks hbefore hrun

instance {goesOn : Bool} : Tidy d cs [] (semicolon d goesOn) [] false := by
  exact .of_still fun c ↦ tidy_semicolonFrom _

instance : Tidy d cs [] (signatureEnd d) [] false := by
  exact .of_still fun c ↦ tidy_semicolonFrom _

end Rule

/-! ### Grammars -/

/-- A rule that gives something and reads tidily **from its own place on**. -/
abbrev Grammar.Tidies (g : Grammar) (cs : List Char) (r : Rule) : Prop :=
  Rule.Tidy g.dialect cs [] r [] true

/-- A grammar that reads **every goal** of a text tidily. -/
class Grammar.IsTidy (cs : List Char) (g : Grammar) : Prop where
  read : ∀ goal, g.Tidies cs (g.read goal)

namespace Grammar

open Rule (Tidy)

variable {cs : List Char} {g : Grammar} {before : List Node} {r s : Rule}
  {made made' : List String} {fills fills' : Bool}

/-- The kinds of typed scripts are **fine** where types may be written. -/
theorem fine_of_mem_typedKinds {d : Dialect} (hd : d.hasTypes = true) {m : Node}
    (hm : m.kind ∈ typedKinds) : m.Fine d cs := by
  have hout : ∀ k ∈ typedKinds, k ≠ Node.templateKind ∧ k ∉ Node.forkedKinds := by decide
  refine ⟨fun hkind ↦ absurd hkind (hout _ hm).1, fun hplain ↦ ?_,
    fun hkind ↦ absurd hkind (hout _ hm).2,
    fun hkind ↦ absurd (Node.markupKinds_subset hkind) (hout _ hm).2⟩
  rw [hplain] at hd
  exact absurd hd (by decide)

/-- The kinds of typed scripts of whose **make-up** nothing needs to be known. -/
def typeMarks : List String := typedKinds.filter (!Node.shapedKinds.contains ·)

theorem known_of_mem_typeMarks {d : Dialect} (hd : d.hasTypes = true) {m : Node}
    (hm : m.kind ∈ typeMarks) : m.Known d cs := by
  obtain ⟨htyped, hshaped⟩ := mem_filter.1 hm
  exact ⟨fine_of_mem_typedKinds hd htyped, Node.shaped_of_not_mem (by simpa using hshaped)⟩

/-- Where types may be written, a rule may make the marks of types. -/
instance (priority := high) [hr : Tidy g.dialect cs before r made fills]
    [hs : Tidy g.dialect cs before s made' fills'] :
    Tidy g.dialect cs before (if g.typed then r else s)
      (made.filter (!typeMarks.contains ·) ++ made') (fills && fills') := by
  split
  · next htyped =>
    have hcover : made ⊆ (made.filter (!typeMarks.contains ·) ++ made') ++ typeMarks := by
      intro k hk
      by_cases hkind : k ∈ typeMarks
      · exact mem_append_right _ hkind
      · exact mem_append_left _ (mem_append_left _ (mem_filter.2 ⟨hk, by simpa⟩))
    exact (hr.mono hcover fun h ↦ (Bool.and_eq_true_iff.1 h).1).forget
      (fun m hm ↦ known_of_mem_typeMarks htyped hm) (by decide)
  · exact hs.mono (subset_append_right _ _) fun h ↦ (Bool.and_eq_true_iff.1 h).2

instance [Tidy g.dialect cs before r made fills] :
    Tidy g.dialect cs before (g.whenTyped r) (made.filter (!typeMarks.contains ·)) fills := by
  unfold whenTyped
  exact Tidy.mono inferInstance (by simp) (by simp)

instance [Tidy g.dialect cs [] r made fills] :
    Tidy g.dialect cs [] (g.optTyped r) (made.filter (!typeMarks.contains ·)) false := by
  unfold optTyped
  exact Tidy.mono inferInstance (by simp) (by simp)

instance {goesOn : Bool} : Tidy g.dialect cs [] (g.semicolon goesOn) [] false := by
  unfold semicolon
  infer_instance

variable [g.IsTidy cs]

instance (goal : Goal) : g.Tidies cs (g.read goal) := IsTidy.read goal

instance : g.Tidies cs g.expression := IsTidy.read _

instance : g.Tidies cs g.initializer := by
  unfold initializer
  exact .prune

end Grammar

end ScriptTree
