import ScriptTree.Proofs.Cursor
import ScriptTree.Proofs.Shape

/-!
# Trees as they grow

While a script is read, nodes follow each other with only **gaps** between them; the comments in the
gaps are put into the tree at the end. A tree that has grown so is in its place once the comments
are in, since each comment lies in the gap in which it was found.

Some kinds of nodes stand for pieces of text of which more is known than where they lie: a template
starts and ends with a backtick, and its substitutions start with a dollar sign and a brace. Some
kinds always have more than one child. Other kinds are made only in typed scripts.

## Main results

* `placedIn_attachBetween`: with the comments put in, what has grown is in its place.
* `Node.Lasts.forall_attachBetween`: putting comments in takes nothing away from what is known.
* `Node.start_lt_stop_of_isFull`: full nodes have a width.
-/

namespace ScriptTree

open List Option
open Utf8 (IsBoundary size)

namespace Node

mutual

/-- A node that has **grown** by reading. -/
def Grown (cs : List Char) : Node → Prop
  | ⟨_, _, _, _, start, stop, children⟩ =>
    IsBoundary cs start ∧ IsBoundary cs stop ∧ start ≤ stop
      ∧ (children = [] ∨ GrownIn cs start stop children)

/-- Nodes that have grown **one after the other** in a range, with gaps around them. -/
def GrownIn (cs : List Char) (start stop : Nat) : List Node → Prop
  | [] => GapTo cs start stop
  | n :: ns => GapTo cs start n.start ∧ Grown cs n ∧ GrownIn cs n.stop stop ns

end

variable {cs : List Char} {n m : Node} {ns ms : List Node} {a b e : Nat} {d : Dialect}
  {ks ks' : List String}

theorem Grown.start_le_stop (h : n.Grown cs) : n.start ≤ n.stop := by
  cases n
  exact h.2.2.1

theorem Grown.isBoundary_stop (h : n.Grown cs) : IsBoundary cs n.stop := by
  cases n
  exact h.2.1

theorem Grown.inRole (h : n.Grown cs) (r : Role) : (n.inRole r).Grown cs := by
  cases n
  exact h

theorem GrownIn.le (h : GrownIn cs a b ns) : a ≤ b := by
  induction ns generalizing a with
  | nil => exact GapTo.le h
  | cons n ns ih => exact Nat.le_trans h.1.le (Nat.le_trans h.2.1.start_le_stop (ih h.2.2))

theorem GrownIn.of_mem (h : GrownIn cs a b ns) (hn : n ∈ ns) :
    a ≤ n.start ∧ n.start ≤ n.stop ∧ n.stop ≤ b := by
  induction ns generalizing a with
  | nil => simp at hn
  | cons m ms ih =>
    obtain ⟨hgap, hm, hms⟩ := h
    rcases mem_cons.1 hn with rfl | hn
    · exact ⟨hgap.le, hm.start_le_stop, hms.le⟩
    · have := ih hms hn
      have := hgap.le
      have := hm.start_le_stop
      omega

theorem GrownIn.isBoundary_left (h : GrownIn cs a b ns) : IsBoundary cs a := by
  cases ns with
  | nil => exact GapTo.isBoundary_left h
  | cons n ns => exact h.1.isBoundary_left

/-- A gap may be put before nodes. -/
theorem GrownIn.gap_append (hgap : GapTo cs a b) (h : GrownIn cs b e ns) : GrownIn cs a e ns := by
  cases ns with
  | nil => exact hgap.trans h
  | cons n ns => exact ⟨hgap.trans h.1, h.2⟩

theorem GrownIn.append (h : GrownIn cs a b ns) (h' : GrownIn cs b e ms) :
    GrownIn cs a e (ns ++ ms) := by
  induction ns generalizing a with
  | nil => exact h'.gap_append h
  | cons n ns ih => exact ⟨h.1, h.2.1, ih h.2.2⟩

theorem GrownIn.map_inRole (h : GrownIn cs a b ns) (r : Role) :
    GrownIn cs a b (ns.map (·.inRole r)) := by
  induction ns generalizing a with
  | nil => exact h
  | cons n ns ih => exact ⟨h.1, h.2.1.inRole r, ih h.2.2⟩

/-! ### What kinds say -/

/-- The kinds of nodes that only **typed** scripts have, as far as they decide what is loaded. -/
def typedKinds : List String := ["type", "import_require_clause"]

/-- The kinds of nodes that **fork**: they have more than one child. -/
def forkedKinds : List String :=
  ["jsx_element", "jsx_self_closing_element", "enum_declaration", "import_statement"]

/-- The kinds of **elements**. -/
def markupKinds : List String := ["jsx_element", "jsx_self_closing_element"]

/-- The kind of opening tags. -/
def openingKind : String := "jsx_opening_element"

/-- The kinds of attributes: with a name, or in braces. -/
def attributeKinds : List String := ["jsx_attribute", "jsx_expression"]

/-- The kind of templates. -/
def templateKind : String := "template_string"

/-- The kind of the substitutions in a template. -/
def substitutionKind : String := "template_substitution"

/-- A node that starts and ends with a **backtick**, its substitutions with their marks in
between. -/
structure Ticked (cs : List Char) (n : Node) : Prop where
  opens : StandsAt cs n.start ['\x60']
  closes : StandsAt cs (n.stop - 1) ['\x60']
  wide : n.start + 2 ≤ n.stop
  substitutions : ∀ m ∈ n.children, m.kind = substitutionKind →
    StandsAt cs m.start ['$', '\x7b'] ∧ n.start + 1 ≤ m.start ∧ m.start + 2 ≤ n.stop

/-- A node that may stand **in a tag**: it is no opening tag, and as an attribute it is of one of
their kinds. -/
def FitsTag (n : Node) : Prop :=
  n.role ≠ some .openTag ∧ (n.role = some .attribute → n.kind ∈ attributeKinds)

/-- A node with a **tag**: its opening tag, if it has one, is of that kind, and the attributes there
or else in the node itself are of theirs. -/
structure Tagged (n : Node) : Prop where
  opening : ∀ m, n.child? .openTag = some m → m.kind = openingKind
  attributes : ∀ m ∈ ((n.child? .openTag).getD n).childrenWith .attribute, m.kind ∈ attributeKinds

/-- What is known of a node **by its kind**. -/
structure Fine (d : Dialect) (cs : List Char) (n : Node) : Prop where
  ticked : n.kind = templateKind → n.Ticked cs
  plain : d = .plain → n.kind ∉ typedKinds
  forked : n.kind ∈ forkedKinds → 2 ≤ n.children.length
  tagged : n.kind ∈ markupKinds → n.Tagged

theorem markupKinds_subset : markupKinds ⊆ forkedKinds := by decide

/-- What is known of a node by its kind, with its **make-up**. -/
structure Known (d : Dialect) (cs : List Char) (n : Node) : Prop extends Fine d cs n, Shaped cs n

/-- A kind with a name, of which nothing but the make-up needs to be known. -/
def isFree (kind : String) : Bool :=
  kind != "" && kind != templateKind && !(typedKinds ++ forkedKinds).contains kind

/-- A kind with a name, of which nothing needs to be known. -/
def isOrdinary (kind : String) : Bool := isFree kind && !shapedKinds.contains kind

theorem fine_of_isFree (h : isFree n.kind = true) : n.Fine d cs := by
  simp only [isFree, Bool.and_eq_true, bne_iff_ne, Bool.not_eq_true',
    contains_eq_mem, decide_eq_false_iff_not, mem_append, not_or] at h
  exact ⟨fun hkind ↦ absurd hkind h.1.2, fun _ ↦ h.2.1, fun hkind ↦ absurd hkind h.2.2,
    fun hkind ↦ absurd (markupKinds_subset hkind) h.2.2⟩

theorem known_of_isOrdinary (h : isOrdinary n.kind = true) : n.Known d cs := by
  obtain ⟨hfree, hshaped⟩ := Bool.and_eq_true_iff.1 h
  exact ⟨fine_of_isFree hfree, shaped_of_not_mem (by simpa using hshaped)⟩

theorem fine_of_forked (hkind : n.kind ∈ forkedKinds) (hlength : 2 ≤ n.children.length)
    (htagged : n.kind ∈ markupKinds → n.Tagged) : n.Fine d cs := by
  have hout : ∀ k ∈ forkedKinds, k ≠ templateKind ∧ k ∉ typedKinds := by decide
  exact ⟨fun h ↦ absurd h (hout _ hkind).1, fun _ ↦ (hout _ hkind).2, fun _ ↦ hlength, htagged⟩

/-- An **element** of which the tag is known. -/
theorem known_of_tagged (hkind : n.kind ∈ markupKinds) (hlength : 2 ≤ n.children.length)
    (htagged : n.Tagged) : n.Known d cs := by
  have hout : ∀ k ∈ markupKinds, k ∉ shapedKinds := by decide
  exact ⟨fine_of_forked (markupKinds_subset hkind) hlength fun _ ↦ htagged,
    shaped_of_not_mem (hout _ hkind)⟩

/-- A node that **is** a tag, with what a tag consists of. -/
theorem tagged_of_fitsTag (h : ∀ m ∈ n.children, m.FitsTag) : n.Tagged := by
  have hnone : n.child? .openTag = none := by
    refine find?_eq_none.2 fun m hm ↦ ?_
    simpa using (h m hm).1
  refine ⟨fun m hm ↦ by simp [hnone] at hm, fun m hm ↦ ?_⟩
  rw [hnone] at hm
  obtain ⟨hm, hrole⟩ := mem_filter.1 hm
  exact (h m hm).2 (by simpa using hrole)

/-- A node that **starts with** an opening tag, which consists of what a tag does. -/
theorem tagged_of_opening {m : Node} {ms : List Node} (hchildren : n.children = m :: ms)
    (hrole : m.role = some .openTag) (hkind : m.kind = openingKind)
    (h : ∀ k ∈ m.children, k.FitsTag) : n.Tagged := by
  have hsome : n.child? .openTag = some m := by
    rw [child?, hchildren, find?_cons_of_pos (by simp [hrole])]
  refine ⟨fun k hk ↦ ?_, fun k hk ↦ ?_⟩
  · rw [hsome] at hk
    exact Option.some.inj hk ▸ hkind
  · rw [hsome] at hk
    obtain ⟨hk, hrole⟩ := mem_filter.1 hk
    exact (h k hk).2 (by simpa using hrole)

theorem Ticked.inRole (h : n.Ticked cs) (r : Role) : (n.inRole r).Ticked cs :=
  ⟨h.opens, h.closes, h.wide, h.substitutions⟩

theorem Tagged.inRole (h : n.Tagged) (r : Role) : (n.inRole r).Tagged := by
  have hchild : (n.inRole r).child? .openTag = n.child? .openTag := rfl
  refine ⟨hchild ▸ h.opening, fun m hm ↦ h.attributes m ?_⟩
  rw [hchild] at hm
  cases hopen : n.child? .openTag <;> (rw [hopen] at hm; exact hm)

theorem Fine.inRole (h : n.Fine d cs) (r : Role) : (n.inRole r).Fine d cs :=
  ⟨fun hkind ↦ (h.ticked hkind).inRole r, h.plain, h.forked, fun hkind ↦ (h.tagged hkind).inRole r⟩

theorem Known.inRole (h : n.Known d cs) (r : Role) : (n.inRole r).Known d cs :=
  ⟨h.toFine.inRole r, h.toShaped.inRole r⟩

/-- A node that is **full**: it has children, or characters of its own. -/
def IsFull (n : Node) : Prop := n.children = [] → n.start < n.stop

/-! ### Nodes laid out -/

/-- Nodes that are **laid out** in a range: they have grown there, and each node at or below them is
known by its kind or is of one of the kinds `ks`. They are full, unless the empty word may be among
what was read. -/
structure Laid (d : Dialect) (cs : List Char) (ks : List String) (a b : Nat) (ns : List Node) :
    Prop where
  grown : GrownIn cs a b ns
  known : ∀ m ∈ preorderAll ns, m.kind ∈ ks ∨ m.Known d cs
  full : "" ∉ ks → ∀ m ∈ preorderAll ns, m.IsFull

theorem laid_nil (h : GapTo cs a b) : Laid d cs ks a b [] :=
  ⟨h, by simp [preorderAll], by simp [preorderAll]⟩

theorem preorderAll_append : preorderAll (ns ++ ms) = preorderAll ns ++ preorderAll ms := by
  induction ns with
  | nil => rfl
  | cons n ns ih => simp [preorderAll, ih]

theorem preorderAll_singleton : preorderAll [n] = n :: preorderAll n.children := by
  rw [← preorder_eq]
  simp [preorderAll]

theorem Laid.append (h : Laid d cs ks a b ns) (h' : Laid d cs ks b e ms) :
    Laid d cs ks a e (ns ++ ms) := by
  refine ⟨h.grown.append h'.grown, fun m hm ↦ ?_, fun hks m hm ↦ ?_⟩
  all_goals
    rw [preorderAll_append] at hm
    rcases mem_append.1 hm with hm | hm
  · exact h.known m hm
  · exact h'.known m hm
  · exact h.full hks m hm
  · exact h'.full hks m hm

/-- What is known stays known when more kinds are left open. -/
theorem Laid.mono (h : Laid d cs ks a b ns) (hks : ks ⊆ ks') : Laid d cs ks' a b ns :=
  ⟨h.grown, fun m hm ↦ (h.known m hm).imp_left fun hkind ↦ hks hkind,
    fun hks' ↦ h.full fun hempty ↦ hks' (hks hempty)⟩

/-- Kinds of which all is known need not be left open. -/
theorem Laid.of_append {more : List String} (h : Laid d cs (ks ++ more) a b ns)
    (hmore : ∀ m : Node, m.kind ∈ more → m.Known d cs) (hempty : "" ∉ more) :
    Laid d cs ks a b ns := by
  refine ⟨h.grown, fun m hm ↦ ?_, fun hks ↦ h.full ?_⟩
  · rcases h.known m hm with hkind | hknown
    · exact (mem_append.1 hkind).imp_right (hmore m)
    · exact .inr hknown
  · exact fun hk ↦ (mem_append.1 hk).elim hks hempty

theorem Laid.map_inRole (h : Laid d cs ks a b ns) (r : Role) :
    Laid d cs ks a b (ns.map (·.inRole r)) := by
  -- A node below is one of those before, or one of them in its new role.
  have hbelow : ∀ m ∈ preorderAll (ns.map (·.inRole r)),
      m ∈ preorderAll ns ∨ ∃ n ∈ preorderAll ns, m = n.inRole r := by
    intro m hm
    obtain ⟨k, hk, hm⟩ := mem_preorderAll.1 hm
    obtain ⟨n, hn, rfl⟩ := mem_map.1 hk
    rcases mem_preorder.1 hm with rfl | hm
    · exact .inr ⟨n, mem_preorderAll.2 ⟨n, hn, n.mem_preorder_self⟩, rfl⟩
    · refine .inl (mem_preorderAll.2 ⟨n, hn, ?_⟩)
      rw [preorder_eq]
      exact mem_cons_of_mem _ hm
  refine ⟨h.grown.map_inRole r, fun m hm ↦ ?_, fun hks m hm ↦ ?_⟩
  · rcases hbelow m hm with hm | ⟨n, hn, rfl⟩
    · exact h.known m hm
    · exact (h.known n hn).imp_right fun hknown ↦ hknown.inRole r
  · rcases hbelow m hm with hm | ⟨n, hn, rfl⟩
    · exact h.full hks m hm
    · exact h.full hks n hn

/-- The first of some nodes, and the others. -/
theorem Laid.uncons (h : Laid d cs ks a b (n :: ns)) :
    Laid d cs ks a n.stop [n] ∧ Laid d cs ks n.stop b ns := by
  obtain ⟨hgap, hn, hns⟩ := h.grown
  have hfirst {m : Node} (hm : m ∈ preorderAll [n]) : m ∈ preorderAll (n :: ns) := by
    rw [preorderAll, preorderAll, append_nil] at hm
    exact mem_append_left _ hm
  exact ⟨⟨⟨hgap, hn, GapTo.refl hn.isBoundary_stop⟩, fun m hm ↦ h.known m (hfirst hm),
      fun hks m hm ↦ h.full hks m (hfirst hm)⟩,
    ⟨hns, fun m hm ↦ h.known m (mem_append_right _ hm),
      fun hks m hm ↦ h.full hks m (mem_append_right _ hm)⟩⟩

/-- Nodes without the gap before them. -/
theorem Laid.tight (h : Laid d cs ks a b (n :: ns)) : Laid d cs ks n.start b (n :: ns) :=
  ⟨⟨GapTo.refl h.grown.1.isBoundary_right, h.grown.2⟩, h.known, h.full⟩

/-- A node that is given an **ordinary** kind. -/
theorem Laid.rename {kind : String} (h : Laid d cs ks a b [n]) (hkind : isOrdinary kind = true) :
    Laid d cs ks a b [{ n with kind := kind }] := by
  obtain ⟨hgap, hn, hstop⟩ := h.grown
  have hself : n ∈ preorderAll [n] := by simp [preorderAll_singleton]
  have hbelow {m : Node} (hm : m ∈ preorderAll n.children) : m ∈ preorderAll [n] := by
    rw [preorderAll_singleton]
    exact mem_cons_of_mem _ hm
  refine ⟨⟨hgap, ?_, hstop⟩, fun m hm ↦ ?_, fun hks m hm ↦ ?_⟩
  · cases n
    exact hn
  all_goals
    rw [preorderAll_singleton] at hm
    rcases mem_cons.1 hm with rfl | hm
  · exact .inr (known_of_isOrdinary hkind)
  · exact h.known m (hbelow hm)
  · exact h.full hks n hself
  · exact h.full hks m (hbelow hm)

/-- A **leaf** after a gap. -/
theorem laid_leaf {kind : String} {named : Bool} (hgap : GapTo cs a b) (he : IsBoundary cs e)
    (hle : b ≤ e) (hknown : kind ∈ ks ∨ Known d cs ⟨kind, named, false, none, b, e, []⟩)
    (hwide : "" ∉ ks → b < e) : Laid d cs ks a e [⟨kind, named, false, none, b, e, []⟩] := by
  refine ⟨⟨hgap, ⟨hgap.isBoundary_right, he, hle, .inl rfl⟩, GapTo.refl he⟩, fun m hm ↦ ?_,
    fun hks m hm ↦ ?_⟩
  all_goals
    rw [preorderAll_singleton] at hm
    obtain rfl : m = _ := by simpa [preorderAll] using hm
  · exact hknown
  · exact fun _ ↦ hwide hks

/-- A **node around** nodes that are laid out in its range. -/
theorem Laid.node {kind : String} {role : Option Role} (hgap : GapTo cs a b)
    (h : Laid d cs ks b e ns) (hne : "" ∉ ks → ns ≠ []) (he : IsBoundary cs e)
    (hknown : kind ∈ ks ∨ Known d cs ⟨kind, true, false, role, b, e, ns⟩) :
    Laid d cs ks a e [⟨kind, true, false, role, b, e, ns⟩] := by
  refine ⟨⟨hgap, ⟨hgap.isBoundary_right, he, h.grown.le, .inr h.grown⟩, GapTo.refl he⟩,
    fun m hm ↦ ?_, fun hks m hm ↦ ?_⟩
  all_goals
    rw [preorderAll_singleton] at hm
    rcases mem_cons.1 hm with rfl | hm
  · exact hknown
  · exact h.known m hm
  · exact fun hnil ↦ absurd hnil (hne hks)
  · exact h.full hks m hm

/-- A node of an **ordinary** kind around nodes that are laid out in its range. -/
theorem Laid.ordinaryNode {kind : String} {role : Option Role} (hkind : isOrdinary kind = true)
    (hgap : GapTo cs a b) (h : Laid d cs ks b e ns) (hne : ns ≠ []) (he : IsBoundary cs e) :
    Laid d cs ks a e [⟨kind, true, false, role, b, e, ns⟩] :=
  h.node hgap (fun _ ↦ hne) he (.inr (known_of_isOrdinary hkind))

end Node

/-! ### Putting the comments in -/

open Node

variable {cs : List Char} {d : Dialect}

@[simp] theorem start_attachComments (c : Cursor) (n : Node) :
    (attachComments c n).start = n.start := by
  obtain ⟨kind, named, missing, role, start, stop, children⟩ := n
  rw [attachComments]
  split <;> rfl

@[simp] theorem stop_attachComments (c : Cursor) (n : Node) :
    (attachComments c n).stop = n.stop := by
  obtain ⟨kind, named, missing, role, start, stop, children⟩ := n
  rw [attachComments]
  split <;> rfl

@[simp] theorem kind_attachComments (c : Cursor) (n : Node) :
    (attachComments c n).kind = n.kind := by
  obtain ⟨kind, named, missing, role, start, stop, children⟩ := n
  rw [attachComments]
  split <;> rfl

@[simp] theorem role_attachComments (c : Cursor) (n : Node) :
    (attachComments c n).role = n.role := by
  obtain ⟨kind, named, missing, role, start, stop, children⟩ := n
  rw [attachComments]
  split <;> rfl

mutual

theorem placed_attachComments {c : Cursor} (hc : c.At cs) :
    ∀ {n : Node}, n.Grown cs → c.offset ≤ n.start → (attachComments c n).Placed cs
  | ⟨kind, named, missing, role, start, stop, children⟩, h, hle => by
    rw [attachComments]
    obtain ⟨hstart, hstop, hwide, hchildren⟩ := h
    obtain ⟨hat, hoffset⟩ := hc.goTo hstart hle
    split
    · next hnil =>
      rw [List.isEmpty_iff.1 hnil]
      exact ⟨hstart, hstop, hwide⟩
    · next hne =>
      rcases hchildren with rfl | hchildren
      · simp at hne
      · refine ⟨hstart, hstop, ?_⟩
        have := placedIn_attachBetween hat (.inl rfl) (hoffset.symm ▸ hchildren)
        rwa [hoffset] at this

/-- With the **comments put in**, up to where it ends or to the end of the text, what has grown is
in its place. -/
theorem placedIn_attachBetween {c : Cursor} (hc : c.At cs) {stop e : Nat}
    (hend : e = stop ∨ e = size cs) : ∀ {ns : List Node}, GrownIn cs c.offset stop ns →
      PlacedIn cs c.offset e (attachBetween c e ns)
  | [], h => by
    rcases hend with rfl | rfl
    · obtain ⟨c', rfl, hgap⟩ := GapTo.gap hc h
      exact c.placedIn_commentsUntil hc hgap
    · exact c.placedIn_commentsUntilFrom_size _ hc
  | n :: ns, h => by
    obtain ⟨hgap, hn, hns⟩ := h
    obtain ⟨hat, hoffset⟩ :=
      hc.goTo hn.isBoundary_stop (Nat.le_trans hgap.le hn.start_le_stop)
    have hrest := placedIn_attachBetween hat hend (hoffset.symm ▸ hns)
    rw [hoffset] at hrest
    obtain ⟨c', hc', hgap'⟩ := hgap.gap hc
    refine (hc' ▸ c.placedIn_commentsUntil hc hgap').append ⟨?_, ?_, ?_⟩
    · simp
    · exact placed_attachComments hc hn hgap.le
    · simpa using hrest

end

/-- The nodes among others with the comments put in are **comments** or come from those. -/
theorem mem_attachBetween {c : Cursor} {stop : Nat} {ns : List Node} {m : Node}
    (hm : m ∈ attachBetween c stop ns) :
    m.kind = Node.commentKind ∧ m.role = none ∧ m.children = []
      ∨ ∃ c', ∃ n ∈ ns, m = attachComments c' n := by
  have hcomment {c : Cursor} {stop : Nat} (hm : m ∈ c.commentsUntil stop) :
      m.kind = Node.commentKind ∧ m.role = none ∧ m.children = [] := by
    obtain ⟨start, stop, -, rfl⟩ := Cursor.eq_of_mem_commentsUntilFrom hm
    exact ⟨rfl, rfl, rfl⟩
  induction ns generalizing c with
  | nil => exact .inl (hcomment hm)
  | cons n ns ih =>
    rcases mem_append.1 hm with hm | hm
    · exact .inl (hcomment hm)
    · rcases mem_cons.1 hm with rfl | hm
      · exact .inr ⟨c, n, mem_cons_self, rfl⟩
      · exact (ih hm).imp_right fun ⟨c', k, hk, heq⟩ ↦ ⟨c', k, mem_cons_of_mem _ hk, heq⟩

theorem children_attachComments (c : Cursor) (n : Node) :
    (attachComments c n).children = []
      ∨ ∃ c' stop, (attachComments c n).children = attachBetween c' stop n.children := by
  obtain ⟨kind, named, missing, role, start, stop, children⟩ := n
  rw [attachComments]
  split
  · next hnil => exact .inl (List.isEmpty_iff.1 hnil)
  · exact .inr ⟨_, _, rfl⟩

/-- The children of a node with the comments put in. -/
theorem mem_children_attachComments {c : Cursor} {n m : Node}
    (hm : m ∈ (attachComments c n).children) :
    m.kind = Node.commentKind ∧ m.role = none ∧ m.children = []
      ∨ ∃ c', ∃ k ∈ n.children, m = attachComments c' k := by
  rcases children_attachComments c n with hnil | ⟨c', stop, heq⟩
  · simp [hnil] at hm
  · exact mem_attachBetween (heq ▸ hm)

theorem length_le_attachBetween (c : Cursor) (stop : Nat) (ns : List Node) :
    ns.length ≤ (attachBetween c stop ns).length := by
  induction ns generalizing c with
  | nil => simp
  | cons n ns ih =>
    have := ih (c.goTo n.stop)
    simp only [attachBetween, length_append, length_cons]
    omega

/-- The first child with a **role** is the same when comments are put in, with comments of its
own. -/
theorem child?_attachComments (c : Cursor) (n : Node) (r : Role) :
    ∃ c', (attachComments c n).child? r = (n.child? r).map (attachComments c') := by
  have hbetween (c : Cursor) (stop : Nat) (ns : List Node) :
      ∃ c', (attachBetween c stop ns).find? (·.role == some r)
        = (ns.find? (·.role == some r)).map (attachComments c') := by
    have hcomments (c : Cursor) (stop : Nat) :
        (c.commentsUntil stop).find? (·.role == some r) = none := by
      refine find?_eq_none.2 fun m hm ↦ ?_
      obtain ⟨start, stop, -, rfl⟩ := Cursor.eq_of_mem_commentsUntilFrom hm
      simp
    induction ns generalizing c with
    | nil => exact ⟨c, hcomments c stop⟩
    | cons n ns ih =>
      rw [attachBetween, find?_append, hcomments]
      cases hrole : n.role == some r with
      | true =>
        refine ⟨c, ?_⟩
        rw [find?_cons_of_pos (by simpa using hrole),
          find?_cons_of_pos (by simpa using hrole)]
        rfl
      | false =>
        rw [find?_cons_of_neg (by simp [hrole]), find?_cons_of_neg (by simp [hrole])]
        exact ih _
  obtain ⟨kind, named, missing, role, start, stop, children⟩ := n
  rw [attachComments]
  split
  · next hnil => exact ⟨c, by simp [Node.child?, List.isEmpty_iff.1 hnil]⟩
  · exact hbetween _ _ _

theorem Node.Tagged.attachComments {n : Node} (h : n.Tagged) (c : Cursor) :
    (attachComments c n).Tagged := by
  obtain ⟨c', hopen⟩ := child?_attachComments c n .openTag
  have hattribute {c : Cursor} {k m : Node}
      (hkinds : ∀ m ∈ k.childrenWith .attribute, m.kind ∈ attributeKinds)
      (hm : m ∈ (ScriptTree.attachComments c k).childrenWith .attribute) :
      m.kind ∈ attributeKinds := by
    obtain ⟨hm, hrole⟩ := mem_filter.1 hm
    rcases mem_children_attachComments hm with ⟨-, hnone, -⟩ | ⟨c', l, hl, rfl⟩
    · simp [hnone] at hrole
    · rw [kind_attachComments]
      exact hkinds l (mem_filter.2 ⟨hl, by simpa using hrole⟩)
  refine ⟨fun m hm ↦ ?_, fun m hm ↦ ?_⟩
  · rw [hopen, map_eq_some_iff] at hm
    obtain ⟨k, hk, rfl⟩ := hm
    rw [kind_attachComments]
    exact h.opening k hk
  · have hkinds := h.attributes
    rw [hopen] at hm
    cases hchild : n.child? .openTag with
    | none =>
      rw [hchild] at hm hkinds
      exact hattribute hkinds hm
    | some k =>
      rw [hchild] at hm hkinds
      exact hattribute hkinds hm

theorem Node.Fine.attachComments {n : Node} (h : n.Fine d cs) (c : Cursor) :
    (attachComments c n).Fine d cs := by
  refine ⟨fun hkind ↦ ?_, fun hd ↦ by simpa using h.plain hd, fun hkind ↦ ?_,
    fun hkind ↦ (h.tagged (by simpa using hkind)).attachComments c⟩
  case refine_2 =>
    rw [kind_attachComments] at hkind
    have hlength := h.forked hkind
    obtain ⟨kind, named, missing, role, start, stop, children⟩ := n
    rw [ScriptTree.attachComments]
    split
    · exact hlength
    · exact hlength.trans (length_le_attachBetween _ _ _)
  rw [kind_attachComments] at hkind
  have hticked := h.ticked hkind
  refine ⟨by simpa using hticked.opens, by simpa using hticked.closes, by simpa using hticked.wide,
    fun m hm hsub ↦ ?_⟩
  rcases mem_children_attachComments hm with ⟨hcomment, -⟩ | ⟨c', k, hk, rfl⟩
  · exact absurd (hcomment.symm.trans hsub) (by decide)
  · simpa using hticked.substitutions k hk (by simpa using hsub)

/-- What the children of a node **look** like stays the same when comments are put in. -/
theorem looks_attachComments (c : Cursor) (n : Node) : (attachComments c n).looks = n.looks := by
  have hcomments (c : Cursor) (stop : Nat) : (c.commentsUntil stop).filter (!·.isComment) = [] := by
    refine filter_eq_nil_iff.2 fun m hm ↦ ?_
    obtain ⟨start, stop, -, rfl⟩ := Cursor.eq_of_mem_commentsUntilFrom hm
    simp [Node.isComment]
  have hbetween (c : Cursor) (stop : Nat) (ns : List Node) :
      ((attachBetween c stop ns).filter (!·.isComment)).map look
        = (ns.filter (!·.isComment)).map look := by
    induction ns generalizing c with
    | nil => rw [attachBetween, hcomments, filter_nil]
    | cons n ns ih =>
      have hlook : (attachComments c n).look = n.look := by
        obtain ⟨kind, named, missing, role, start, stop, children⟩ := n
        rw [attachComments]
        split <;> rfl
      have hcomment : (attachComments c n).isComment = n.isComment := by simp [Node.isComment]
      rw [attachBetween, filter_append, hcomments, nil_append, filter_cons,
        filter_cons, hcomment]
      split
      · rw [map_cons, map_cons, hlook, ih]
      · exact ih _
  obtain ⟨kind, named, missing, role, start, stop, children⟩ := n
  rw [attachComments]
  split
  · rfl
  · exact hbetween _ _ _

theorem Node.Shaped.attachComments {n : Node} (h : n.Shaped cs) (c : Cursor) :
    (attachComments c n).Shaped cs := by
  refine ⟨fun hkind ↦ ?_, fun hkind ↦ ?_, fun hkind m hm hcomment ↦ ?_⟩
  · obtain ⟨piece, hpiece, hstop, hline⟩ := h.line (by simpa using hkind)
    exact ⟨piece, by simpa using hpiece, by simpa using hstop, hline⟩
  · rw [looks_attachComments, kind_attachComments]
    exact h.follows (by simpa using hkind)
  · rcases mem_children_attachComments hm with ⟨-, hrole, -⟩ | ⟨c', k, hk, rfl⟩
    · exact hrole
    · rw [role_attachComments]
      exact h.comments (by simpa using hkind) k hk (by simpa [Node.isComment] using hcomment)

theorem Node.Known.attachComments {n : Node} (h : n.Known d cs) (c : Cursor) :
    (attachComments c n).Known d cs :=
  ⟨h.toFine.attachComments c, h.toShaped.attachComments c⟩

/-- A node stays full when comments are put in. -/
theorem Node.IsFull.attachComments {n : Node} (h : n.IsFull) (c : Cursor) :
    (attachComments c n).IsFull := by
  obtain ⟨kind, named, missing, role, start, stop, children⟩ := n
  intro hnil
  rw [ScriptTree.attachComments] at hnil ⊢
  cases children with
  | nil => exact h rfl
  | cons n ns => simp [attachBetween] at hnil

/-- A property that comments have, and that a node keeps when comments are put in. -/
structure Node.Lasts (P : Node → Prop) : Prop where
  comment : ∀ start stop, start < stop →
    P ⟨Node.commentKind, true, false, none, start, stop, []⟩
  attach : ∀ c n, P n → P (attachComments c n)

theorem Node.Lasts.forall_commentsUntil {P : Node → Prop} (hP : Node.Lasts P) {c : Cursor}
    {stop : Nat} : ∀ m ∈ preorderAll (c.commentsUntil stop), P m := by
  intro m hm
  obtain ⟨n, hn, hm⟩ := mem_preorderAll.1 hm
  obtain ⟨start, stop, hlt, rfl⟩ := Cursor.eq_of_mem_commentsUntilFrom hn
  obtain rfl : m = _ := by simpa [preorder, preorderAll] using hm
  exact hP.comment start stop hlt

mutual

theorem Node.Lasts.forall_attachComments {P : Node → Prop} (hP : Node.Lasts P) {c : Cursor} :
    ∀ {n : Node}, (∀ m ∈ n.preorder, P m) → ∀ m ∈ (attachComments c n).preorder, P m
  | ⟨kind, named, missing, role, start, stop, children⟩, h, m, hm => by
    have hself := h _ (mem_preorder_self _)
    rcases mem_preorder.1 hm with rfl | hm
    · exact hP.attach c _ hself
    · have hbelow : ∀ m ∈ preorderAll children, P m := fun m hm ↦ h m (mem_cons_of_mem _ hm)
      rw [attachComments] at hm
      split at hm
      · next hnil =>
        rw [List.isEmpty_iff.1 hnil] at hm
        simp [preorderAll] at hm
      · exact hP.forall_attachBetween hbelow m hm

/-- Putting comments in **takes nothing away** from what is known. -/
theorem Node.Lasts.forall_attachBetween {P : Node → Prop} (hP : Node.Lasts P) {c : Cursor}
    {stop : Nat} : ∀ {ns : List Node}, (∀ m ∈ preorderAll ns, P m) →
      ∀ m ∈ preorderAll (attachBetween c stop ns), P m
  | [], _, m, hm => hP.forall_commentsUntil m hm
  | n :: ns, h, m, hm => by
    rw [attachBetween, preorderAll_append] at hm
    rcases mem_append.1 hm with hm | hm
    · exact hP.forall_commentsUntil m hm
    · rcases mem_append.1 hm with hm | hm
      · exact hP.forall_attachComments (fun m hm ↦ h m (mem_append_left _ hm)) m hm
      · exact hP.forall_attachBetween (fun m hm ↦ h m (mem_append_right _ hm)) m hm

end

theorem Node.lasts_known : Node.Lasts (Node.Known d cs) :=
  ⟨fun _ _ _ ↦ known_of_isOrdinary (by simp only; decide), fun c _ h ↦ h.attachComments c⟩

theorem Node.lasts_isFull : Node.Lasts Node.IsFull :=
  ⟨fun _ _ hlt _ ↦ hlt, fun c _ h ↦ h.attachComments c⟩

/-- A node in its place that is full all through has a **width**. -/
theorem Node.start_lt_stop_of_isFull :
    ∀ {n : Node}, n.Placed cs → (∀ m ∈ n.preorder, m.IsFull) → n.start < n.stop
  | ⟨kind, named, missing, role, start, stop, []⟩, _, h => h _ (mem_preorder_self _) rfl
  | ⟨kind, named, missing, role, start, stop, n :: ns⟩, hplaced, h => by
    have hn : n ∈ preorder ⟨kind, named, missing, role, start, stop, n :: ns⟩ :=
      mem_preorder_of_mem_children mem_cons_self
    obtain ⟨hstart, hinside, hstop⟩ := hplaced.of_mem_preorder hn
    have hlt := Node.start_lt_stop_of_isFull hinside fun m hm ↦ h m (mem_preorder_trans hn hm)
    exact Nat.lt_of_le_of_lt hstart (Nat.lt_of_lt_of_le hlt hstop)

end ScriptTree
