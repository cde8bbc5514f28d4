import ScriptTree.Proofs.LineFeeds
import ScriptTree.Proofs.Surroundings

/-!
# Elements keep their lines

The call for an element is filled up with the line feeds that it lacks against the element, so the
two have **the same number** as soon as the call has no more. It has not: each text in it is that of
a node, these nodes lie one after the other in the element, and each is written with no more line
feeds than it has. The last is shown for all nodes of a tree at once, from the nodes below.

That holds because what is written more than once stands on one line. An enum repeats its name, a
constructor the names of its parameters, and these are names; the value of a member of an enum is
written once, and the next member is told from the member and not from its value.

## Main results

* `Transform.lineFeeds_compileEnum_le`, `Transform.Compiled.lineFeeds_le`: typed parts gain no line
  feeds.
* `Transform.lineFeeds_callText_le`: nor do the calls for elements.
* `Transform.lineFeeds_plainText_le`: nor do nodes.
* `Transform.element_keeps_lines`: elements have the line feeds that they had.
-/

namespace ScriptTree

open List Option Node

/-- Nodes in a range lie also in what is left of it from a byte on **before the first** of them. -/
theorem Node.PlacedIn.of_le_start {cs : List Char} {ns : List Node} {a b c : Nat}
    (h : PlacedIn cs a b ns) (hns : ∀ m ∈ ns, c ≤ m.start) (hc : c ≤ b) : PlacedIn cs c b ns := by
  cases ns with
  | nil => exact hc
  | cons m ns => exact ⟨hns m mem_cons_self, h.2.1, h.2.2⟩

namespace Transform

open Utf8 (IsBoundary size)
open Node (preorderAll)

/-! ### Typed parts -/

section Parts

variable {tree : SourceTree} {cs : List Char} {d : Dialect} {names : MarkupNames}
  {edits : EditSet} {n m : Node} {text name : Text} {state state' : EnumState}

theorem placedIn_parts (h : n.Placed cs) : Node.PlacedIn cs n.start n.stop n.parts :=
  (placed_iff.1 h).2.2.of_sublist (filter_sublist.trans filter_sublist)

/-- The **value** of a member of an enum has no more line feeds than the member. -/
theorem lineFeeds_memberValue_le (hplaced : m.Placed cs) {value : Option Node}
    (hvalue : ∀ k ∈ value, k ∈ m.preorder) (hprevious : lineFeeds state.previous = 0)
    (hrendered : ∀ k ∈ m.preorder, ∃ t, tree.rendered edits k = .ok t ∧
      lineFeeds t = lineFeeds (ownText cs k))
    {written : Text × Option Number × Bool}
    (h : memberValue tree edits state value = .ok written) :
    lineFeeds written.1 ≤ lineFeeds (ownText cs m) := by
  cases value with
  | none =>
    simp only [memberValue] at h
    split at h
    · obtain ⟨t, ht, h⟩ := bind_eq_ok_iff.1 h
      obtain rfl := pure_eq_ok_iff.1 h
      unfold numberText at ht
      split at ht
      · next hnumber => simp [← Except.ok.inj ht, lineFeeds_numeral hnumber]
      · cases ht
    · obtain rfl := pure_eq_ok_iff.1 h
      simp [hprevious]
  | some k =>
    obtain ⟨t, ht, hfeeds⟩ := hrendered k (hvalue k rfl)
    simp only [memberValue, ht] at h
    have hwritten : written.1 = t := by
      obtain ⟨_, heq, h⟩ := bind_eq_ok_iff.1 h
      cases heq
      split at h <;> (obtain rfl := pure_eq_ok_iff.1 h; rfl)
    rw [hwritten, hfeeds]
    exact lineFeeds_ownText_le hplaced (hvalue k rfl)

/-- One more **member** of an enum gains no line feeds. -/
theorem lineFeeds_of_enumMember (hplaced : m.Placed cs)
    (hname : lineFeeds name = 0) (hprevious : lineFeeds state.previous = 0)
    (hrendered : ∀ k ∈ m.preorder, ∃ t, tree.rendered edits k = .ok t ∧
      lineFeeds t = lineFeeds (ownText cs k))
    (h : enumMember tree edits name state m = .ok state') :
    lineFeeds state'.previous = 0 ∧ ∃ t, state'.assignments = state.assignments ++ [t] ∧
      lineFeeds t ≤ lineFeeds (ownText cs m) := by
  unfold enumMember at h
  dsimp only at h
  obtain ⟨key, -, h⟩ := bind_eq_ok_iff.1 h
  obtain ⟨written, hwritten, h⟩ := bind_eq_ok_iff.1 h
  obtain rfl := pure_eq_ok_iff.1 h
  have hfeeds : lineFeeds written.1 ≤ lineFeeds (ownText cs m) := by
    refine lineFeeds_memberValue_le hplaced (fun k hk ↦ ?_) hprevious hrendered hwritten
    split at hk
    · exact mem_preorder_of_mem_children (mem_of_find?_eq_some hk)
    · cases hk
  have haccess : lineFeeds (memberAccess name (JsonString.quote true key)) = 0 := by
    simp [memberAccess, hname, lineFeeds_quote]
  refine ⟨haccess, _, rfl, ?_⟩
  unfold memberAssignment
  split <;> simpa [haccess, hname, lineFeeds_quote] using hfeeds

/-- **All members** of an enum gain no line feeds. -/
theorem sum_lineFeeds_of_enumMembers {members : List Node} (hplaced : ∀ m ∈ members, m.Placed cs)
    (hname : lineFeeds name = 0) (hprevious : lineFeeds state.previous = 0)
    (hrendered : ∀ m ∈ preorderAll members, ∃ t, tree.rendered edits m = .ok t ∧
      lineFeeds t = lineFeeds (ownText cs m))
    (h : members.foldlM (enumMember tree edits name) state = .ok state') :
    (state'.assignments.map lineFeeds).sum
      ≤ (state.assignments.map lineFeeds).sum
        + (members.map fun m ↦ lineFeeds (ownText cs m)).sum := by
  induction members generalizing state with
  | nil =>
    obtain rfl := pure_eq_ok_iff.1 h
    exact Nat.le_refl _
  | cons m members ih =>
    obtain ⟨next, hmember, h⟩ := bind_eq_ok_iff.1 h
    obtain ⟨hnext, t, hassignments, hfeeds⟩ :=
      lineFeeds_of_enumMember (hplaced m mem_cons_self) hname hprevious
        (fun k hk ↦ hrendered k (mem_append_left _ hk)) hmember
    have hrest := ih (fun k hk ↦ hplaced k (mem_cons_of_mem _ hk)) hnext
      (fun k hk ↦ hrendered k (mem_append_right _ hk)) h
    rw [hassignments, map_append, sum_append, map_singleton,
      sum_singleton] at hrest
    rw [map_cons, sum_cons]
    omega

/-- An **enum** gains no line feeds: its name stands on one line, and each value is written once. -/
theorem lineFeeds_compileEnum_le (hformed : tree.Formed d cs)
    (hcompiled : Compiled tree names edits) (hn : n ∈ reached tree)
    (hkind : n.kind = "enum_declaration") (h : compileEnum tree edits n = .ok text) :
    lineFeeds text ≤ lineFeeds (ownText cs n) := by
  have hover := hformed.toOver
  have hroot := mem_preorder_of_reached hn
  have hplaced := placed_of_reached hover hn
  have hshaped := hformed.shaped n hroot
  have hshapedKind : n.kind ∈ Node.shapedKinds := by rw [hkind]; decide
  obtain ⟨identifier, hidentifier, hidentifierKind⟩ :
      ∃ m, n.child? .name = some m ∧ m.kind = "identifier" :=
    hshaped.exists_of_looks (·.find? (·.role == some .name)) (hshaped.child?_eq hshapedKind .name)
      (by rw [hkind]; decide) (by rw [hkind]; decide)
  obtain ⟨body, hbody, -⟩ : ∃ m, n.child? .body = some m ∧ m.kind = "enum_body" :=
    hshaped.exists_of_looks (·.find? (·.role == some .body)) (hshaped.child?_eq hshapedKind .body)
      (by rw [hkind]; decide) (by rw [hkind]; decide)
  have hidentifierRoot := mem_preorder_of_child hroot (mem_of_find?_eq_some hidentifier)
  have hbodyBelow : body ∈ n.children := mem_of_find?_eq_some hbody
  have hname : lineFeeds (ownText cs identifier) = 0 :=
    lineFeeds_ownText_of_name (hformed.shaped _ hidentifierRoot) hidentifierKind
  have hparts {k : Node} (hk : k ∈ preorderAll body.parts) : k ∈ preorderAll n.children := by
    obtain ⟨m, hm, hk⟩ := mem_preorderAll.1 hk
    exact mem_preorderAll_trans (mem_preorderAll_of_parts
      (mem_preorderAll_of_mem hbodyBelow) hm) hk
  simp only [compileEnum, hidentifier, hbody, getD_some, nodeText_eq_ownText hover hidentifierRoot] at h
  obtain ⟨_, heq, h⟩ := bind_eq_ok_iff.1 h
  cases heq
  obtain ⟨state, hstate, h⟩ := bind_eq_ok_iff.1 h
  obtain rfl := pure_eq_ok_iff.1 h
  have hmember {m : Node} (hm : m ∈ preorderAll body.parts) : m.Placed cs :=
    (hplaced.of_mem_preorder (mem_preorder_of_below (hparts hm))).2.1
  have hmembers := sum_lineFeeds_of_enumMembers
    (fun m hm ↦ hmember (mem_preorderAll_of_mem hm)) hname rfl
    (fun m hm ↦ ⟨_, rendered_of_mem_enum hover hcompiled hn hkind (hparts hm),
      lineFeeds_gapText hformed m.start m.stop⟩) hstate
  have hjoined : lineFeeds (Text.join " " state.assignments) ≤ lineFeeds (ownText cs n) := by
    rw [lineFeeds_join (by rfl)]
    have hbodyOwn := mem_preorder_of_mem_children hbodyBelow
    calc (state.assignments.map lineFeeds).sum
        ≤ 0 + (body.parts.map fun m ↦ lineFeeds (ownText cs m)).sum := hmembers
      _ = (body.parts.map fun m ↦ lineFeeds (ownText cs m)).sum := Nat.zero_add _
      _ ≤ lineFeeds (ownText cs body) :=
        sum_lineFeeds_le (placedIn_parts (hplaced.of_mem_preorder hbodyOwn).2.1)
      _ ≤ lineFeeds (ownText cs n) := lineFeeds_ownText_le hplaced hbodyOwn
  simpa [hname] using hjoined

/-- The text that stands for a **typed part** has no more line feeds than the part. -/
theorem Rewrites.lineFeeds_le (hformed : tree.Formed d cs) (hcompiled : Compiled tree names edits)
    (hn : n ∈ reached tree) (hm : m ∈ n.preorder) (helement : elementKinds.contains m.kind = false)
    (h : Rewrites tree names edits n m text) : lineFeeds text ≤ lineFeeds (ownText cs m) := by
  have hover := hformed.toOver
  have hroot := mem_preorder_of_reached hn
  have hplaced := placed_of_reached hover hn
  have hown {k : Node} (hk : k ∈ n.preorder) : tree.nodeText k = .ok (ownText cs k) :=
    nodeText_eq_ownText hover (mem_preorder_trans hroot hk)
  have hpart {k : Node} {t : Text} (hk : k ∈ n.preorder) (ht : tree.nodeText k = .ok t) :
      lineFeeds t ≤ lineFeeds (ownText cs n) := by
    obtain rfl := Except.ok.inj ((hown hk).symm.trans ht)
    exact lineFeeds_ownText_le hplaced hk
  have hname {k : Node} {t : Text} (hk : k ∈ n.preorder) (hkind : k.kind = "identifier")
      (ht : tree.nodeText k = .ok t) : lineFeeds t = 0 := by
    obtain rfl := Except.ok.inj ((hown hk).symm.trans ht)
    exact lineFeeds_ownText_of_name (hformed.shaped k (mem_preorder_trans hroot hk)) hkind
  cases h with
  | gone => exact Nat.zero_le _
  | assigned => simp
  | listed _ _ hclause hitems =>
    have hclause := (hplaced.of_mem_preorder hm).2.1
    have hkept := (placedIn_parts hclause).of_sublist
      (filter_sublist.trans filter_sublist :
        ((exportItems m).filter (!·.hasToken ["type"])).Sublist m.parts)
    have hitem (k) (hk : k ∈ (exportItems m).filter (!·.hasToken ["type"])) :
        tree.nodeText k = .ok (ownText cs k) :=
      hown (mem_preorder_of_child hm
        (mem_children_of_parts (mem_of_mem_filter (mem_of_mem_filter hk))))
    rw [mapM_eq_ok hitem] at hitems
    cases hitems
    unfold exportList
    dsimp only
    split
    · simp
    · rw [lineFeeds_append, lineFeeds_append, lineFeeds_join (by rfl)]
      have hsum : _ ≤ lineFeeds (ownText cs m) := sum_lineFeeds_le hkept
      simpa [Function.comp_def] using hsum
  | @required clause _ _ _ hclause hbinding hsource =>
    have hbelow := mem_preorder_of_part? hclause
    have hclauseKind : clause.kind = "import_require_clause" := by
      simpa using find?_some hclause
    have hshaped := hformed.shaped clause (mem_preorder_trans hroot hbelow)
    obtain ⟨identifier, hidentifier, hkind⟩ :
        ∃ k, clause.part? "identifier" = some k ∧ k.kind = "identifier" :=
      hshaped.exists_of_looks (fun looks ↦ (looks.filter (·.named)).find? (·.kind == "identifier"))
        (clause.map_look_part? (by decide)) (by rw [hclauseKind]; decide)
        (by rw [hclauseKind]; decide)
    rw [hidentifier] at hbinding
    have hzero := hname (mem_preorder_trans hbelow (mem_preorder_of_part? hidentifier)) hkind
      hbinding
    have hmem : (clause.child? .source).getD clause ∈ clause.preorder := by
      cases hchild : clause.child? .source with
      | none => exact clause.mem_preorder_self
      | some k => exact mem_preorder_of_mem_children (mem_of_find?_eq_some hchild)
    simpa [hzero] using hpart (mem_preorder_trans hbelow hmem) hsource
  | renamed _ hkind hbinding hvalue =>
    have hshaped := hformed.shaped n hroot
    obtain ⟨identifier, hidentifier, hidentifierKind⟩ :
        ∃ k, n.parts.head? = some k ∧ k.kind = "identifier" :=
      hshaped.exists_of_looks (fun looks ↦ (looks.filter (·.named)).head?) n.head?_parts_eq
        (by rw [hkind]; decide) (by rw [hkind]; decide)
    rw [hidentifier] at hbinding
    have hzero := hname (mem_preorder_of_mem_children (mem_children_of_parts
      (mem_of_mem_head? hidentifier))) hidentifierKind hbinding
    have hmem : n.parts.getLast?.getD n ∈ n.preorder := by
      cases hlast : n.parts.getLast? with
      | none => exact n.mem_preorder_self
      | some k =>
        exact mem_preorder_of_mem_children (mem_children_of_parts (mem_of_getLast? hlast))
    simpa [hzero] using hpart hmem hvalue
  | enum _ hkind htext => exact lineFeeds_compileEnum_le hformed hcompiled hn hkind htext
  | element _ hkind => exact absurd (helement.symm.trans hkind) Bool.false_ne_true

/-- What is **replaced** and no element has no more line feeds than there were. -/
theorem Compiled.lineFeeds_le (hcompiled : Compiled tree names edits) (hformed : tree.Formed d cs)
    (helement : elementKinds.contains n.kind = false)
    (hreplaced : edits.replacement? n = some text) : lineFeeds text ≤ lineFeeds (ownText cs n) := by
  obtain ⟨k, hk, -, m, hm, hkey, hrewrites⟩ := hcompiled.texts _ (mem_of_lookup hreplaced)
  obtain ⟨hstart, hstop, hkind⟩ := NodeKey.mk.inj hkey
  have hown : ownText cs n = ownText cs m := by rw [ownText, ownText, hstart, hstop]
  rw [hown]
  exact hrewrites.lineFeeds_le hformed hcompiled hk (mem_preorder_of_typedParts hm)
    (hkind ▸ helement)

end Parts

/-! ### Calls -/

section Calls

variable {cs : List Char} {names : MarkupNames} {below : Node → Text} {n m : Node} {text : Text}

/-- A way to write nodes that **gains no line feeds** below a node. -/
def GainsNone (cs : List Char) (below : Node → Text) (n : Node) : Prop :=
  ∀ m ∈ preorderAll n.children, lineFeeds (below m) ≤ lineFeeds (ownText cs m)

theorem GainsNone.of_mem (h : GainsNone cs below n) (hm : m ∈ preorderAll n.children) :
    GainsNone cs below m := fun k hk ↦
  h k (mem_preorderAll_trans hm (mem_preorder_of_below hk))

theorem GainsNone.of_head?_parts (h : GainsNone cs below n) (hplaced : n.Placed cs)
    (hm : n.parts.head? = some m) : lineFeeds (below m) ≤ lineFeeds (ownText cs n) := by
  have hmem := mem_children_of_parts (mem_of_mem_head? hm)
  exact Nat.le_trans (h m (mem_preorderAll_of_mem hmem))
    (lineFeeds_ownText_le hplaced (mem_preorder_of_mem_children hmem))

theorem lineFeeds_tagText_le (h : lineFeeds names.fragment = 0) (name : Option Node) :
    lineFeeds (tagText cs names name) ≤ (name.toList.map fun m ↦ lineFeeds (ownText cs m)).sum := by
  cases name with
  | none => exact Nat.le_of_eq h
  | some m =>
    rw [tagText, toList_some, map_singleton]
    split
    · simp [lineFeeds_stringLiteral]
    · exact Nat.le_refl _

/-- An **attribute** gains no line feeds: its key and its value lie one after the other. -/
theorem lineFeeds_propText_le (h : GainsNone cs below n) (hplaced : n.Placed cs)
    (htext : propText cs below n = some text) : lineFeeds text ≤ lineFeeds (ownText cs n) := by
  have hvalue {value : Node} (hvalue : value ∈ n.parts) :
      lineFeeds (valueText cs below (some value)) ≤ lineFeeds (ownText cs value) := by
    have hmem := mem_preorderAll_of_mem (mem_children_of_parts hvalue)
    unfold valueText
    dsimp only
    split
    · simp [lineFeeds_quote]
    · split
      · cases hhead : value.parts.head? with
        | none => simp
        | some inner =>
          have hinside := (hplaced.of_mem_preorder (mem_preorder_of_below hmem)).2.1
          exact (h.of_mem hmem).of_head?_parts hinside hhead
      · exact h value hmem
  unfold propText at htext
  split at htext
  · obtain ⟨inner, hhead, rfl⟩ := map_eq_some_iff.1 htext
    exact h.of_head?_parts hplaced hhead
  · obtain ⟨key, hhead, rfl⟩ := map_eq_some_iff.1 htext
    obtain ⟨rest, hparts⟩ : ∃ rest, n.parts = key :: rest := head?_eq_some_iff.1 hhead
    have hkey : lineFeeds (keyText (ownText cs key)) ≤ lineFeeds (ownText cs key) := by
      unfold keyText
      split
      · exact Nat.le_refl _
      · simp [lineFeeds_stringLiteral]
    have hsum : _ ≤ lineFeeds (ownText cs n) := sum_lineFeeds_le (placedIn_parts hplaced)
    have hrest : lineFeeds (valueText cs below rest.head?)
        ≤ (rest.map fun m ↦ lineFeeds (ownText cs m)).sum := by
      cases rest with
      | nil => simp [valueText]
      | cons value rest =>
        have hle := hvalue (show value ∈ n.parts by simp [hparts])
        rw [head?_cons, map_cons, sum_cons]
        omega
    rw [hparts, map_cons, sum_cons] at hsum
    have hcolon : lineFeeds (": " : Text) = 0 := by simp
    rw [hparts, tail_cons, lineFeeds_append, lineFeeds_append]
    omega

/-- The line feeds that a **piece** may be written with: text is quoted. -/
def Piece.feeds (cs : List Char) : Piece → Nat
  | .run _ _ => 0
  | .node n => lineFeeds (ownText cs n)

theorem sum_feeds_piecesTo (ns : List Node) (stop cursor : Nat) :
    ((piecesTo stop cursor ns).map (Piece.feeds cs)).sum
      = (ns.map fun m ↦ lineFeeds (ownText cs m)).sum := by
  induction ns generalizing cursor with
  | nil => rfl
  | cons m ns ih => simp [piecesTo, Piece.feeds, ih]

theorem mem_of_node_mem_piecesTo {ns : List Node} {stop cursor : Nat}
    (h : .node m ∈ piecesTo stop cursor ns) : m ∈ ns := by
  induction ns generalizing cursor with
  | nil => simp [piecesTo] at h
  | cons k ns ih =>
    simp only [piecesTo, mem_cons, reduceCtorEq, false_or, Piece.node.injEq] at h
    rcases h with rfl | h
    · exact mem_cons_self
    · exact mem_cons_of_mem _ (ih h)

/-- A **piece** gains no line feeds: text is quoted. -/
theorem lineFeeds_argument?_le {piece : Piece} (h : GainsNone cs below n) (hplaced : n.Placed cs)
    (hpiece : ∀ m, piece = .node m → m ∈ n.children)
    (htext : piece.argument? cs below = some text) : lineFeeds text ≤ piece.feeds cs := by
  cases piece with
  | run a b =>
    unfold Piece.argument? at htext
    dsimp only at htext
    split at htext
    · cases htext
    · exact Option.some.inj htext ▸ Nat.le_of_eq (lineFeeds_quote _ _)
  | node m =>
    have hmem := mem_preorderAll_of_mem (hpiece m rfl)
    unfold Piece.argument? at htext
    dsimp only at htext
    split at htext
    · obtain ⟨inner, hhead, rfl⟩ := map_eq_some_iff.1 htext
      exact (h.of_mem hmem).of_head?_parts
        (hplaced.of_mem_preorder (mem_preorder_of_below hmem)).2.1 hhead
    · exact Option.some.inj htext ▸ h m hmem

theorem mem_preorder_of_openingOf (n : Node) : openingOf n ∈ n.preorder := by
  unfold openingOf
  cases hopen : n.child? .openTag with
  | none => exact n.mem_preorder_self
  | some opening => exact mem_preorder_of_mem_children (mem_of_find?_eq_some hopen)

/-- The **children** of an element gain no line feeds. -/
theorem sum_lineFeeds_childTexts_le (h : GainsNone cs below n) (hplaced : n.Placed cs) :
    ((childTexts cs below n).map lineFeeds).sum
      ≤ lineFeeds (scriptText cs (openingOf n).stop n.stop) := by
  have hopening := (hplaced.of_mem_preorder (mem_preorder_of_openingOf n)).2.2
  unfold childTexts
  split
  · simp
  · next closing hclosing =>
    have hstart (m) (hm : m ∈ innerNodes n closing) : (openingOf n).stop ≤ m.start := by
      have hinner := (mem_filter.1 hm).2
      simp only [isMarkupChild, Bool.and_eq_true, decide_eq_true_eq] at hinner
      exact hinner.1.1
    have hinner := ((placed_iff.1 hplaced).2.2.of_sublist
      (filter_sublist : (innerNodes n closing).Sublist n.children)).of_le_start hstart hopening
    calc (((piecesTo closing.start (openingOf n).stop (innerNodes n closing)).filterMap
          (Piece.argument? cs below)).map lineFeeds).sum
        ≤ ((piecesTo closing.start (openingOf n).stop (innerNodes n closing)).map
            (Piece.feeds cs)).sum :=
          sum_lineFeeds_filterMap_le fun piece hpiece t ht ↦ lineFeeds_argument?_le h hplaced
            (fun m hm ↦ mem_of_mem_filter (mem_of_node_mem_piecesTo (hm ▸ hpiece))) ht
      _ = ((innerNodes n closing).map fun m ↦ lineFeeds (ownText cs m)).sum :=
          sum_feeds_piecesTo _ _ _
      _ ≤ lineFeeds (scriptText cs (openingOf n).stop n.stop) := sum_lineFeeds_le hinner

theorem sum_map_filter_add_le {α : Type} {p q : α → Bool} (hpq : ∀ a, p a = true → q a = false)
    (g : α → Nat) (l : List α) :
    ((l.filter p).map g).sum + ((l.filter q).map g).sum ≤ (l.map g).sum := by
  induction l with
  | nil => simp
  | cons a l ih =>
    rw [map_cons, sum_cons]
    cases hp : p a with
    | true =>
      rw [filter_cons_of_pos hp, filter_cons_of_neg (by simp [hpq a hp]), map_cons,
        sum_cons]
      omega
    | false =>
      rw [filter_cons_of_neg (by simp [hp])]
      cases hq : q a with
      | true =>
        rw [filter_cons_of_pos hq, map_cons, sum_cons]
        omega
      | false =>
        rw [filter_cons_of_neg (by simp [hq])]
        omega

/-- The **tag and the attributes** of an element gain no line feeds. -/
theorem lineFeeds_opening_le (hfragment : lineFeeds names.fragment = 0) (h : GainsNone cs below n)
    (hplaced : n.Placed cs) :
    lineFeeds (tagText cs names (n.child? .name))
      + lineFeeds (propsText cs below (n.childrenWith .attribute)) ≤ lineFeeds (ownText cs n) := by
  have hname : lineFeeds (tagText cs names (n.child? .name))
      ≤ ((n.childrenWith .name).map fun m ↦ lineFeeds (ownText cs m)).sum := by
    refine Nat.le_trans (lineFeeds_tagText_le hfragment _) ?_
    have hfirst : n.child? .name = (n.childrenWith .name).head? := head?_filter.symm
    rw [hfirst]
    cases n.childrenWith .name <;> simp
  have hprops : lineFeeds (propsText cs below (n.childrenWith .attribute))
      ≤ ((n.childrenWith .attribute).map fun m ↦ lineFeeds (ownText cs m)).sum := by
    unfold propsText
    split
    · simp
    · rw [lineFeeds_append, lineFeeds_append, lineFeeds_join (by rfl)]
      have hsum : ((((n.childrenWith .attribute).filterMap (propText cs below))).map lineFeeds).sum
          ≤ ((n.childrenWith .attribute).map fun m ↦ lineFeeds (ownText cs m)).sum := by
        refine sum_lineFeeds_filterMap_le fun m hm t ht ↦ ?_
        have hmem := mem_preorderAll_of_mem (mem_of_mem_filter hm)
        exact lineFeeds_propText_le (h.of_mem hmem)
          (hplaced.of_mem_preorder (mem_preorder_of_below hmem)).2.1 ht
      simpa using hsum
  have hchildren := sum_lineFeeds_le (placed_iff.1 hplaced).2.2
  have hboth := sum_map_filter_add_le (p := (·.role == some .name))
    (q := (·.role == some .attribute)) (fun m hm ↦ by rw [beq_iff_eq.1 hm]; rfl)
    (fun m ↦ lineFeeds (ownText cs m)) n.children
  exact Nat.le_trans (Nat.add_le_add hname hprops) (hboth.trans hchildren)

/-- The **call** for an element gains no line feeds. -/
theorem lineFeeds_callText_le (hfactory : lineFeeds names.factory = 0)
    (hfragment : lineFeeds names.fragment = 0) (h : GainsNone cs below n) (hplaced : n.Placed cs) :
    lineFeeds (callText cs names below n) ≤ lineFeeds (ownText cs n) := by
  have hmem := mem_preorder_of_openingOf n
  obtain ⟨hstart, hopening, hstop⟩ := hplaced.of_mem_preorder hmem
  have hbelow : GainsNone cs below (openingOf n) := fun m hm ↦ by
    obtain ⟨k, hk, hm⟩ := mem_preorderAll.1 hm
    exact h m (mem_preorderAll_trans (mem_preorderAll_of_openingOf hk) hm)
  have hopen := lineFeeds_opening_le hfragment hbelow hopening
  have hchildren := sum_lineFeeds_childTexts_le h hplaced
  have hsplit : lineFeeds (scriptText cs (openingOf n).start n.stop) = _ :=
    lineFeeds_scriptText_append hopening.start_le_stop hstop
  have hwithin : lineFeeds (scriptText cs (openingOf n).start n.stop)
      ≤ lineFeeds (scriptText cs n.start n.stop) :=
    lineFeeds_scriptText_le hstart (Nat.le_refl n.stop)
      (Nat.le_trans hopening.start_le_stop hstop)
  have hcall : lineFeeds (callText cs names below n)
      = lineFeeds (tagText cs names ((openingOf n).child? .name))
        + lineFeeds (propsText cs below ((openingOf n).childrenWith .attribute))
        + ((childTexts cs below n).map lineFeeds).sum := by
    have hcomma : lineFeeds (", " : Text) = 0 := by rfl
    simp [callText, hfactory, lineFeeds_join hcomma, Nat.add_assoc]
  rw [ownText] at hopen ⊢
  omega

end Calls

/-! ### All nodes -/

section Nodes

variable {tree : SourceTree} {cs : List Char} {d : Dialect} {names : MarkupNames}
  {path : Option Path} {edits edits' : EditSet} {below : Node → Text} {n m : Node} {w : Work}

/-- An element is filled up to the line feeds that it **had**, if its call has no more. -/
theorem lineFeeds_padded {source text : Text} (h : lineFeeds text ≤ lineFeeds source) :
    lineFeeds (padded source text) = lineFeeds source := by
  have hfill : lineFeeds (padded source text)
      = lineFeeds text + (lineFeeds source - lineFeeds text) := by
    rw [padded, lineFeeds_append, lineFeeds_replicate]
    rfl
  omega

theorem lineFeeds_withGaps_le (hformed : tree.Formed d cs) {ns : List Node} {a b : Nat}
    (hplaced : Node.PlacedIn cs a b ns)
    (h : ∀ m ∈ ns, lineFeeds (below m) ≤ lineFeeds (ownText cs m)) :
    lineFeeds (withGaps tree cs below b a ns) ≤ lineFeeds (scriptText cs a b) := by
  induction ns generalizing a with
  | nil => exact Nat.le_of_eq (lineFeeds_gapText hformed a b)
  | cons m ns ih =>
    obtain ⟨hstart, hm, hrest⟩ := hplaced
    have hwidth := hm.start_le_stop
    have hself := h m mem_cons_self
    have hnext := ih hrest fun k hk ↦ h k (mem_cons_of_mem _ hk)
    rw [withGaps, lineFeeds_append, lineFeeds_append, lineFeeds_gapText hformed,
      lineFeeds_scriptText_append hstart (hwidth.trans hrest.le),
      lineFeeds_scriptText_append hwidth hrest.le]
    rw [ownText] at hself
    omega

/-- **No node** gains line feeds, since the nodes below it do not. -/
theorem lineFeeds_plainText_le (hformed : tree.Formed d cs) (hcollect : collect tree path = .ok w)
    (hcompile : compileElements tree names w.edits w.elements = .ok edits)
    (hfactory : lineFeeds names.factory = 0) (hfragment : lineFeeds names.fragment = 0)
    (hn : n ∈ tree.root.preorder) :
    lineFeeds (plainText tree cs names w.edits n) ≤ lineFeeds (ownText cs n) := by
  have hcollected : Collected tree names (reached tree) w := collected_collect hcollect
  have hcompiled := compiled_compileElements hformed.toOver hcollect hcompile
  induction hsize : n.preorder.length using Nat.strong_induction_on generalizing n with
  | _ size ih =>
  have hplaced := (hformed.placed.of_mem_preorder hn).2.1
  have hbelow : GainsNone cs (plainText tree cs names w.edits) n := fun m hm ↦
    ih _ (hsize ▸ length_preorder_lt hm)
      (mem_preorder_trans hn (mem_preorder_of_below hm)) rfl
  rw [plainText_eq, composed]
  split
  · rw [lineFeeds_append, lineFeeds_assignedAt hformed, elementText,
      lineFeeds_padded (lineFeeds_callText_le hfactory hfragment hbelow hplaced), Nat.zero_add]
  · next helement =>
    have helement : elementKinds.contains n.kind = false := by simpa using helement
    rw [← hcollected.replacement?_eq hcompile helement]
    split
    · next text hreplaced =>
      rw [lineFeeds_append, lineFeeds_assignedAt hformed, Nat.zero_add]
      exact hcompiled.lineFeeds_le hformed helement hreplaced
    · split
      · exact Nat.le_of_eq (lineFeeds_gapText hformed _ _)
      · exact lineFeeds_withGaps_le hformed (placed_iff.1 hplaced).2.2 fun m hm ↦
          hbelow m (mem_preorderAll_of_mem hm)

/-! ### Main result -/

/-- **Elements keep their lines.** Let the factory and the tag of fragments stand on one line. In a
well-formed script without namespaces every element that is compiled has exactly the line feeds that
it had, whatever stands in it: other elements, enums, constructors that declare properties or types.
This is what is written for it. In the plain text, where nothing around it is replaced, it stands
between what is written for the script before it and after it. So if it starts on its line, what
follows is on its line too. -/
theorem element_keeps_lines (hread : SourceTree.readStrict d cs = .ok tree)
    (hcollect : collect tree path = .ok w) (names : MarkupNames)
    (hfactory : .scalar '\n' ∉ names.factory) (hfragment : .scalar '\n' ∉ names.fragment) :
    ∃ edits, compileElements tree names w.edits w.elements = .ok edits ∧
      ∀ n ∈ reached tree, elementKinds.contains n.kind = true →
        ∃ text, compileElement tree edits names n = .ok text ∧ edits.replacement? n = some text ∧
          lineFeeds text = lineFeeds (ownText cs n) ∧
          ∀ elide edits', plainEdits tree names elide path = .ok edits' →
            tree.rendered edits' n = .ok (assignedAt tree n.start ++ text) ∧
            (StandsOpen edits' tree.root n →
              plainTree tree names elide path
                = .ok (writtenBefore tree cs edits' n.start ++ text
                  ++ writtenAfter tree cs edits' n.stop) ∧
              (lineFeeds (writtenBefore tree cs edits' n.start)
                  = lineFeeds (scriptText cs 0 n.start) →
                lineFeeds (writtenBefore tree cs edits' n.start ++ text)
                  = lineFeeds (scriptText cs 0 n.stop))) := by
  have hformed : tree.Formed d cs := eq_read_of_readStrict hread ▸ formed_read d cs
  have hover := hformed.toOver
  have hcollected : Collected tree names (reached tree) w := collected_collect hcollect
  obtain ⟨edits, hcompile⟩ : ∃ edits, compileElements tree names w.edits w.elements = .ok edits :=
    exists_compileElements hover (fun e he ↦ hcollected.reached_of_elements he) hcollected.editsFor
  refine ⟨edits, hcompile, fun n hn helement ↦ ?_⟩
  obtain ⟨text, htext, hreplaced⟩ := hcollected.exists_compiled hover hcompile hn helement
  have hplaced := placed_of_reached hover hn
  have hlines : lineFeeds text = lineFeeds (ownText cs n) := by
    rw [compileElement_eq_elementText hover hn helement fun m _ hm ↦
      rendered_eq_plainText hover hcollect hcompile hm] at htext
    obtain rfl := Except.ok.inj htext
    refine lineFeeds_padded (lineFeeds_callText_le (lineFeeds_eq_zero_iff.2 hfactory)
      (lineFeeds_eq_zero_iff.2 hfragment) (fun m hm ↦ ?_) hplaced)
    exact lineFeeds_plainText_le hformed hcollect hcompile (lineFeeds_eq_zero_iff.2 hfactory)
      (lineFeeds_eq_zero_iff.2 hfragment) (Node.mem_preorder_trans (mem_preorder_of_reached hn)
        (Node.mem_preorder_of_below hm))
  refine ⟨text, htext, hreplaced, hlines, fun elide edits' hplain ↦ ?_⟩
  have hrendered : tree.rendered edits' n = .ok (assignedAt tree n.start ++ text) := by
    obtain ⟨used, edits₀, -, hall⟩ := exists_allEdits hover hplain
    refine rendered_of_some hover (hall.fits hover)
      (textAt_eq_assignedAt hall.insertions hall.statements) (mem_preorder_of_reached hn) ?_
    rw [replacement?_plainEdits hcollect hcompile hplain helement, hreplaced]
  refine ⟨hrendered, fun hopen ↦ ⟨?_, fun hbefore ↦ ?_⟩⟩
  · exact plainTree_eq_of_standsOpen hover hplain (mem_preorder_of_reached hn) hopen hrendered
  · rw [lineFeeds_append, hbefore, hlines,
      lineFeeds_scriptText_append (Nat.zero_le n.start) hplaced.start_le_stop]
    rfl

/-- A script with an element over several lines. In it stand an enum, a constructor that declares a
property, a type and another element. -/
def linedMarkup : List Char :=
  ("x = <a b=\x7b1\x7d\n  c>\n  \x7b() => \x7b enum E \x7b A,\n B \x7d class C \x7b "
    ++ "constructor(readonly p: T) \x7b\x7d \x7d return <D\n/> as T \x7d\x7d\n</a>; y").toList

/-- At a script with an element over six lines, and one over two lines inside it. -/
theorem element_keeps_lines_lined :
    ((reached (SourceTree.read .typedMarkup linedMarkup)).filter
      (elementKinds.contains ·.kind)).map (fun n ↦ lineFeeds (ownText linedMarkup n)) = [5, 1] ∧
    ∃ (w : Work) (edits : EditSet),
      SourceTree.readStrict .typedMarkup linedMarkup
        = .ok (SourceTree.read .typedMarkup linedMarkup) ∧
      collect (SourceTree.read .typedMarkup linedMarkup) (some markupPath) = .ok w ∧
      compileElements (SourceTree.read .typedMarkup linedMarkup) {} w.edits w.elements
        = .ok edits ∧
      ∀ n ∈ reached (SourceTree.read .typedMarkup linedMarkup),
        elementKinds.contains n.kind = true → ∃ text, edits.replacement? n = some text ∧
          lineFeeds text = lineFeeds (ownText linedMarkup n) := by
  have hread : SourceTree.readStrict .typedMarkup linedMarkup
      = .ok (SourceTree.read .typedMarkup linedMarkup) :=
    readStrict_of_firstFault? (by decide +kernel)
  obtain ⟨w, hcollect, -⟩ : ∃ w,
      collect (SourceTree.read .typedMarkup linedMarkup) (some markupPath) = .ok w ∧ true = true :=
    exists_of_succeedsWith (p := fun _ ↦ true) (by decide +kernel)
  obtain ⟨edits, hcompile, helements⟩ :=
    element_keeps_lines hread hcollect {} (by decide) (by decide)
  refine ⟨by decide +kernel, w, edits, hread, hcollect, hcompile, fun n hn helement ↦ ?_⟩
  obtain ⟨text, -, hreplaced, hlines, -⟩ := helements n hn helement
  exact ⟨text, hreplaced, hlines⟩

end Nodes

end Transform

end ScriptTree
