import ScriptTree.Proofs.Literal
import ScriptTree.Proofs.Program
import ScriptTree.Proofs.Sites
import ScriptTree.Proofs.Splice

/-!
# Linking retargets specifiers

A linked script is the script with a patch at each internal site that lies in no other, and each
patch writes a literal of the same form with the new specifier. A patch for a template copies what
follows its first text, so a site in there keeps its old specifier.

## Main results

* `exists_writes_of_holds`: every specifier that a tree holds can be rewritten to any value.
* `linkEdits_eq`, `link_eq`: the edits of a link, and its text.
* `link_eq_spliced`: which specifiers a link retargets, and how.
-/

namespace ScriptTree

open List hiding get set
open Node
open Utf8 (IsBoundary size window)

variable {cs : List Char} {tree : SourceTree} {n : Node} {spec : SpecifierNode}

/-! ### Texts of ranges -/

/-- The characters of a text **between** two bytes. -/
def between (cs : List Char) (a b : Nat) : List Char := (window cs a b).map (·.2)

theorem rangeText_eq (hsource : tree.source = Utf8.encodeChars cs) {a b : Nat}
    (ha : IsBoundary cs a) (hb : IsBoundary cs b) (hab : a ≤ b) :
    tree.rangeText a b = .ok (Text.ofChars (between cs a b)) := by
  rw [SourceTree.rangeText, SourceTree.slice, hsource, Utf8.decode_slice ha hb hab]
  rfl

/-- An empty range holds no text. -/
theorem rangeText_of_le {a b : Nat} (h : b ≤ a) : tree.rangeText a b = .ok [] := by
  rw [SourceTree.rangeText, SourceTree.slice, Nat.sub_eq_zero_of_le h]
  rfl

theorem StandsAt.isBoundary {a : Nat} {piece : List Char} (h : StandsAt cs a piece) :
    IsBoundary cs a := by
  obtain ⟨before, after, hcs, ha⟩ := h
  exact ⟨before, piece ++ after, by rw [hcs, append_assoc], ha⟩

/-- What stands at a byte is what is **between** it and a later one. -/
theorem StandsAt.between_eq {a b : Nat} {piece : List Char} (h : StandsAt cs a piece)
    (hb : a + size piece ≤ b) : between cs a b = piece ++ between cs (a + size piece) b := by
  obtain ⟨before, after, rfl, rfl⟩ := h
  rw [between, Utf8.window_append _ (Nat.le_add_right _ _) hb, map_append,
    Utf8.window_eq_located, Utf8.map_snd_located]
  rfl

/-! ### The first text of a template -/

/-- The first text of a template **ends** before a substitution or before the closing mark. -/
theorem templateSegment_of_ticked (h : n.Ticked cs) :
    (templateSegment n).1 = n.start + 1 ∧ n.start + 1 ≤ (templateSegment n).2 ∧
      (templateSegment n).2 ≤ n.stop ∧ IsBoundary cs (templateSegment n).2 ∧
      Lexeme.templateChars? (between cs (templateSegment n).2 n.stop) = some 0 ∧
      (between cs (templateSegment n).2 n.stop).head? ≠ some '\x7b' := by
  have hwide := h.wide
  unfold templateSegment
  split
  · next m hm =>
    have hkind : m.kind = "template_substitution" := by simpa using find?_some hm
    obtain ⟨hstands, hstart, hstop⟩ := h.substitutions m (mem_of_find?_eq_some hm) hkind
    have hmax : max (n.start + 1) m.start = m.start := by omega
    have htail := hstands.between_eq hstop
    simp only [hmax]
    refine ⟨trivial, hstart, by omega, hstands.isBoundary, ?_, ?_⟩
    · rw [htail]
      rfl
    · rw [htail]
      simp
  · have hmax : max (n.start + 1) (n.stop - 1) = n.stop - 1 := by omega
    have hsize : size ['\x60'] = 1 := by decide
    have htail := h.closes.between_eq (b := n.stop) (by rw [hsize]; omega)
    simp only [hmax]
    refine ⟨trivial, by omega, by omega, h.closes.isBoundary, ?_, ?_⟩
    · rw [htail]
      rfl
    · rw [htail]
      simp

/-! ### Writing a specifier -/

/-- A text that **writes a value** in the form of a specifier. A string or the first text of a
template reads back as the value, and ends there as a lexeme; a template goes on as it was. What is
read raw is written as it is. -/
inductive Writes (cs : List Char) (spec : SpecifierNode) (value : Text) : Text → Prop
  | string {q : Char} {body : Text} (hform : spec.form = .string) (hq : IsQuote q)
      (hvalue : unescape body = .ok value)
      (hlexeme : ∀ l, .scalar q :: body ++ [.scalar q] = Text.ofChars l →
        ∀ rest, Lexeme.string? (l ++ rest) = some l.length) :
      Writes cs spec value (.scalar q :: body ++ [.scalar q])
  | template {body : Text} (hform : spec.form = .template) (hvalue : unescape body = .ok value)
      (hlexeme : ∀ l, body = Text.ofChars l →
        Lexeme.templateChars? (l ++ between cs spec.stop spec.node.stop) = some l.length) :
      Writes cs spec value
        (.scalar '\x60' :: body ++ Text.ofChars (between cs spec.stop spec.node.stop))
  | raw {tag template : Node} (hform : spec.form = .raw)
      (htag : spec.node.child? .function = some tag)
      (htemplate : spec.node.child? .arguments = some template) :
      Writes cs spec value
        (Text.ofChars (between cs spec.node.start tag.stop)
          ++ .scalar '\x60' :: value ++ Text.ofChars (between cs spec.stop template.stop))

variable {d : Dialect}

theorem SourceTree.Over.ticked (h : tree.Over d cs) (hn : n ∈ tree.root.preorder)
    (hkind : n.kind = "template_string") : n.Ticked cs := (h.fine n hn).ticked hkind

/-- A specifier that a tree holds can be **rewritten** to any value. -/
theorem exists_writes_of_holds (h : tree.Over d cs) (hn : n ∈ tree.root.preorder)
    (hholds : Holds tree n spec) (value : Text) :
    ∃ text, writeSpecifier tree spec value = .ok text ∧ Writes cs spec value text := by
  have hplaced := (h.placed.of_mem_preorder hn).2.1
  obtain ⟨hstart, hstop, -⟩ := placed_iff.1 hplaced
  cases hholds with
  | string hkind hvalue =>
    obtain ⟨q, hq, hquote⟩ := exists_isQuote_quoteFor value
    refine ⟨_, rfl, ?_⟩
    have hlexeme (l : List Char) (hl : stringLiteral value = Text.ofChars l) (rest : List Char) :=
      string?_stringLiteral hl rest
    simp only [stringLiteral, hquote] at hlexeme ⊢
    exact .string rfl hq (unescape_quoted hq value) hlexeme
  | template hkind hvalue =>
    obtain ⟨-, -, hle, hboundary, htail, hbrace⟩ :=
      templateSegment_of_ticked (h.ticked hn hkind)
    refine ⟨_, ?_, .template rfl (unescape_templateText value)
      fun l hl ↦ templateChars?_templateText hl htail hbrace⟩
    simp only [writeSpecifier, rangeText_eq h.source hboundary hstop hle]
    rfl
  | @raw tag template _ htag htemplate hkind hvalue =>
    have htagMem := mem_preorder_of_mem_children (mem_children_of_child? htag)
    have htemplateMem := mem_preorder_of_mem_children (mem_children_of_child? htemplate)
    obtain ⟨htagStart, htagPlaced, -⟩ := hplaced.of_mem_preorder htagMem
    obtain ⟨-, htemplatePlaced, -⟩ := hplaced.of_mem_preorder htemplateMem
    obtain ⟨-, -, hle, hboundary, -, -⟩ :=
      templateSegment_of_ticked (h.ticked (mem_preorder_trans hn htemplateMem) hkind)
    refine ⟨_, ?_, .raw rfl htag htemplate⟩
    have hfront := rangeText_eq h.source hstart (placed_iff.1 htagPlaced).2.1
      (htagStart.trans htagPlaced.start_le_stop)
    have hrest := rangeText_eq h.source hboundary (placed_iff.1 htemplatePlaced).2.1 hle
    simp only [writeSpecifier, htag, htemplate, Option.getD_some, hfront, hrest]
    rfl

/-- The node of a specifier that names something has a **width**. -/
theorem start_lt_stop_of_holds (h : tree.Over d cs) (hn : n ∈ tree.root.preorder)
    (hholds : Holds tree n spec) (hvalue : spec.value ≠ []) : n.start < n.stop := by
  have hplaced := (h.placed.of_mem_preorder hn).2.1
  cases hholds with
  | @string value _ hcooked =>
    by_contra hle
    simp only [SourceTree.cookedRange, rangeText_of_le (by omega : n.stop - 1 ≤ n.start + 1)]
      at hcooked
    have : [] = value := by simpa [bind, Except.bind, cooked, unescape, unescapeFrom] using hcooked
    exact hvalue this.symm
  | template hkind _ =>
    have := (h.ticked hn hkind).wide
    omega
  | raw _ htemplate hkind _ =>
    have hmem := mem_preorder_of_mem_children (mem_children_of_child? htemplate)
    have hwide := (h.ticked (mem_preorder_trans hn hmem) hkind).wide
    obtain ⟨hstart, -, hstop⟩ := hplaced.of_mem_preorder hmem
    omega

/-! ### Imports of names -/

/-- Whether a statement **takes names** from the package that it imports. -/
def SourceTree.takesNamesAt (tree : SourceTree) (n : Node) : Bool :=
  n.kind == "import_statement" &&
    match edgeAt tree n with
    | .ok (some s, _) =>
      match namedImport tree n 0 s.1.value with
      | .ok taken => taken.isSome
      | .error _ => false
    | _ => false

/-- Whether some statement takes names from a package. -/
def SourceTree.takesNames (tree : SourceTree) : Bool := tree.root.preorder.any tree.takesNamesAt

theorem nodeText_eq (h : tree.Over d cs) (hn : n ∈ tree.root.preorder) :
    tree.nodeText n = .ok (Text.ofChars (between cs n.start n.stop)) := by
  have hplaced := (h.placed.of_mem_preorder hn).2.1
  obtain ⟨hstart, hstop, -⟩ := placed_iff.1 hplaced
  exact rangeText_eq h.source hstart hstop hplaced.start_le_stop

/-- The names of a clause can always be **read**. -/
theorem exists_addItem (h : tree.Over d cs) {item : Node} (hitem : item ∈ tree.root.preorder)
    (names : ClauseNames) : ∃ names', names.addItem tree item = .ok names' := by
  have hname : (item.child? .name).getD item ∈ tree.root.preorder := by
    cases hchild : item.child? .name with
    | none => exact hitem
    | some m =>
      exact mem_preorder_of_child hitem (mem_children_of_child? hchild)
  unfold ClauseNames.addItem
  split
  · exact ⟨_, rfl⟩
  · rw [nodeText_eq h hname]
    cases hchild : item.child? .alias with
    | none => exact ⟨_, rfl⟩
    | some m =>
      have hm := mem_preorder_of_child hitem (mem_children_of_child? hchild)
      simp only [nodeText_eq h hm]
      exact ⟨_, rfl⟩

theorem exists_foldlM_addItem (h : tree.Over d cs) {items : List Node}
    (hitems : ∀ m ∈ items, m ∈ tree.root.preorder) (names : ClauseNames) :
    ∃ names', items.foldlM (ClauseNames.addItem tree) names = .ok names' := by
  induction items generalizing names with
  | nil => exact ⟨_, rfl⟩
  | cons item items ih =>
    obtain ⟨names', hnames'⟩ := exists_addItem h (hitems item mem_cons_self) names
    rw [foldlM_cons, hnames']
    exact ih (fun m hm ↦ hitems m (mem_cons_of_mem _ hm)) names'

theorem exists_ofParts (h : tree.Over d cs) {parts : List Node}
    (hparts : ∀ m ∈ parts, m ∈ tree.root.preorder) (names : ClauseNames) :
    ∃ found, ClauseNames.ofParts tree names parts = .ok found := by
  induction parts generalizing names with
  | nil => exact ⟨_, rfl⟩
  | cons part parts ih =>
    have hpart := hparts part mem_cons_self
    have ih := ih fun m hm ↦ hparts m (mem_cons_of_mem _ hm)
    rw [ClauseNames.ofParts]
    unfold ClauseNames.addPart
    split_ifs with hidentifier hnamed
    · rw [nodeText_eq h hpart]
      exact ih _
    · have hitems : ∀ m ∈ part.children.filter (·.named), m ∈ tree.root.preorder := fun m hm ↦
        mem_preorder_of_child hpart (mem_of_mem_filter hm)
      obtain ⟨names', hnames'⟩ := exists_foldlM_addItem h hitems names
      rw [hnames']
      exact ih _
    · exact ⟨_, rfl⟩

/-- The names of a clause of a node can be read. -/
theorem exists_ofParts_clause (h : tree.Over d cs) (hn : n ∈ tree.root.preorder)
    {p : Node → Bool} {clause : Node} (hclause : n.children.find? p = some clause) :
    ∃ found, ClauseNames.ofParts tree {} (clause.children.filter (·.named)) = .ok found := by
  have hmem := mem_preorder_of_child hn (mem_of_find?_eq_some hclause)
  exact exists_ofParts h
    (fun m hm ↦ mem_preorder_of_child hmem (mem_of_mem_filter hm)) {}

/-- A statement takes the same names **at every position**. -/
theorem namedImport_eq_none (h : tree.Over d cs) (hn : n ∈ tree.root.preorder) {value : Text}
    (htakes : ∀ taken, namedImport tree n 0 value = .ok taken → taken = none) (index : Nat) :
    namedImport tree n index value = .ok none := by
  unfold namedImport at htakes ⊢
  split
  · rfl
  · next hspecifier =>
    rw [if_neg hspecifier] at htakes
    cases hclause : n.children.find? (fun c => c.named && c.kind == "import_clause") with
    | none => rfl
    | some clause =>
      obtain ⟨found, hfound⟩ := exists_ofParts_clause h hn hclause
      simp only [hclause, hfound] at htakes ⊢
      cases found with
      | none => rfl
      | some names =>
        by_cases hempty : names.bindings.isEmpty
        · simp only [bind, Except.bind, hempty]
          rfl
        · simp [bind, Except.bind, hempty, pure, Except.pure] at htakes

theorem namedImport_of_takesNames (h : tree.Over d cs) (hnames : tree.takesNames = false)
    (hn : n ∈ tree.root.preorder) (hkind : n.kind = "import_statement") {s : Site} {next : Visit}
    (hsite : edgeAt tree n = .ok (some s, next)) (index : Nat) :
    namedImport tree n index s.1.value = .ok none := by
  have hat := any_eq_false.1 hnames n hn
  refine namedImport_eq_none h hn (fun taken htaken ↦ ?_) index
  simpa [SourceTree.takesNamesAt, hkind, hsite, htaken] using hat

/-! ### The edits of a link -/

variable {targets : SpecifierTargets}

/-- The text in place of the node of a site. -/
def Site.relinked (tree : SourceTree) (targets : SpecifierTargets) (s : Site) : Text :=
  match writeSpecifier tree s.1 (newSpecifier targets s.1.value s.2) with
  | .ok text => text
  | .error _ => []

/-- The edits with the specifier at a site changed, if it is internal. -/
def Site.relink (tree : SourceTree) (targets : SpecifierTargets) (edits : EditSet) (s : Site) :
    EditSet :=
  if isInternal s.1.value then edits.replace s.1.node (s.relinked tree targets) else edits

theorem writeSpecifier_eq_relinked (targets : SpecifierTargets) (h : tree.Over d cs) {s : Site}
    (hs : s.1.node ∈ tree.root.preorder ∧ Holds tree s.1.node s.1) :
    writeSpecifier tree s.1 (newSpecifier targets s.1.value s.2) = .ok (s.relinked tree targets) ∧
      Writes cs s.1 (newSpecifier targets s.1.value s.2) (s.relinked tree targets) := by
  obtain ⟨text, htext, hwrites⟩ := exists_writes_of_holds h hs.1 hs.2
    (newSpecifier targets s.1.value s.2)
  rw [Site.relinked, htext]
  exact ⟨rfl, hwrites⟩

theorem retarget_eq (targets : SpecifierTargets) (h : tree.Over d cs) {s : Site}
    (hs : s.1.node ∈ tree.root.preorder ∧ Holds tree s.1.node s.1) (edits : EditSet) :
    retarget tree targets s.1 s.2 edits = .ok (s.relink tree targets edits) := by
  unfold retarget Site.relink
  split
  · rw [(writeSpecifier_eq_relinked targets h hs).1]
    rfl
  · rfl

/-- Linking **follows** the sites where dependencies are found, if no names are taken. -/
theorem follows_linkVisit (h : tree.Over .plain cs) (hnames : tree.takesNames = false)
    (hn : n ∈ tree.root.preorder) (index : Nat) :
    Follows (edgeAt tree) (fun w s ↦ { w with edits := Site.relink tree targets w.edits s })
      (linkVisit tree targets index) n := by
  have hsites : edgeAt tree n = linkSite tree n := edgeAt_eq_linkSite fun m hm ↦
    (h.fine m (mem_preorder_of_child hn hm)).plain rfl
  refine ⟨fun found ↦ edgeAt_ne_stop, fun w ↦ ?_⟩
  simp only [linkVisit, bind, StateT.bind, liftM, monadLift, MonadLift.monadLift, ← hsites]
  cases hsite : edgeAt tree n with
  | error e => rfl
  | ok x =>
    obtain ⟨found, next⟩ := x
    cases found with
    | none => rfl
    | some s =>
      obtain ⟨hmem, hholds⟩ := holds_of_edgeAt hsite
      have hretarget := retarget_eq targets h
        ⟨mem_preorder_trans hn hmem, hholds⟩ w.edits
      simp only [Except.bind, Except.map, StateT.bind, StateT.lift, get, getThe, MonadStateOf.get,
        StateT.get, pure, Except.pure, bind, hretarget]
      -- Neither an import, which takes no names, nor any other node changes what was taken.
      split
      · next hkind =>
        have hnamed := namedImport_of_takesNames h hnames hn (beq_iff_eq.1 hkind) hsite index
        simp [StateT.bind, StateT.lift, StateT.set, StateT.pure, hnamed, set, bind, Except.bind,
          pure, Except.pure]
      · simp [StateT.bind, StateT.set, StateT.pure, set, bind, Except.bind, pure, Except.pure]

/-- The sites of a list whose specifiers are internal. -/
def internalSites (found : List Site) : List Site := found.filter fun s ↦ isInternal s.1.value

/-- The edits at all sites of a list. -/
def relinks (tree : SourceTree) (targets : SpecifierTargets) (found : List Site) : EditSet :=
  found.foldl (Site.relink tree targets) {}

theorem addInterop_nil (tree : SourceTree) (fs : FileSystem) (importer : Path) (edits : EditSet) :
    addInterop fs importer tree [] edits = .ok edits := by
  simp only [addInterop, map_nil, eraseDups_nil, mapM_nil, bind, pure, Except.bind,
    Except.pure, filter_nil, foldlM_nil]

/-- The **edits of a link** are those at the sites of the tree. -/
theorem linkEdits_eq (h : tree.Over .plain cs) (hnames : tree.takesNames = false)
    (fs : FileSystem) (importer : Path) :
    linkEdits fs importer tree targets
      = (Node.gatherAll (edgeAt tree) tree.statements).map (relinks tree targets) := by
  have hfold (found : List Site) (w : LinkWork) :
      found.foldl (fun w s ↦ { w with edits := Site.relink tree targets w.edits s }) w
        = { w with edits := found.foldl (Site.relink tree targets) w.edits } := by
    induction found generalizing w with
    | nil => rfl
    | cons s found ih => exact ih _
  have hwalk : tree.walk (linkVisit tree targets) {} = _ :=
    SourceTree.walk_eq (fun index n hn ↦ follows_linkVisit h hnames hn index) {}
  unfold linkEdits
  simp only [StateT.run, hwalk, hfold]
  cases Node.gatherAll (edgeAt tree) tree.statements with
  | error e => rfl
  | ok found => exact addInterop_nil tree fs importer _

/-- A link puts a text in place of the node of every internal site, one after the other. -/
theorem relinks_eq (tree : SourceTree) (targets : SpecifierTargets) (found : List Site) :
    relinks tree targets found
      = EditSet.replaceAll {}
          ((internalSites found).map fun s ↦ (s.1.node, s.relinked tree targets)) := by
  have hrun (edits : EditSet) :
      found.foldl (Site.relink tree targets) edits
        = edits.replaceAll
            ((internalSites found).map fun s ↦ (s.1.node, s.relinked tree targets)) := by
    induction found generalizing edits with
    | nil => rfl
    | cons s found ih =>
      rw [foldl_cons, ih]
      unfold Site.relink internalSites
      cases hinternal : isInternal s.1.value <;> simp [hinternal, EditSet.replaceAll]
  exact hrun {}

/-- Each edit of a link is at an **internal site**. -/
theorem mem_replacements_relinks {found : List Site} {r : NodeKey × Text}
    (hr : r ∈ (relinks tree targets found).replacements) :
    ∃ s ∈ internalSites found, r = (s.1.node.key, s.relinked tree targets) := by
  rw [relinks_eq] at hr
  obtain ⟨c, hc, rfl⟩ := (EditSet.mem_replacements_replaceAll hr).resolve_left (by simp)
  obtain ⟨s, hs, rfl⟩ := mem_map.1 hc
  exact ⟨s, hs, rfl⟩

/-- A link **replaces** the node of every internal site. -/
theorem isSome_replacement?_relinks {found : List Site} {s : Site}
    (hs : s ∈ internalSites found) :
    ((relinks tree targets found).replacement? s.1.node).isSome := by
  rw [relinks_eq]
  exact EditSet.isSome_replacement?_replaceAll (.inl ⟨_, mem_map_of_mem hs, rfl⟩)

/-- A link puts nothing in. -/
theorem insertions_relinks (tree : SourceTree) (targets : SpecifierTargets) (found : List Site) :
    (relinks tree targets found).insertions = [] ∧
      (relinks tree targets found).statementInsertions = [] := by
  simp [relinks_eq]

@[simp] theorem isInternal_nil : isInternal [] = false := by decide

/-- Sites that **hold** their specifiers in a tree. -/
def Held (tree : SourceTree) (sites : List Site) : Prop :=
  ∀ s ∈ sites, s.1.node ∈ tree.root.preorder ∧ Holds tree s.1.node s.1

theorem held_gatherAll {found : List Site}
    (h : Node.gatherAll (edgeAt tree) tree.statements = .ok found) : Held tree found := by
  intro s hs
  obtain ⟨m, hm, next, hsite⟩ := exists_of_mem_gatherAll h hs
  obtain ⟨hmem, hholds⟩ := holds_of_edgeAt hsite
  exact ⟨mem_preorder_trans (SourceTree.mem_preorder_of_statements hm) hmem, hholds⟩

/-- The edits of a link **fit** the tree. -/
theorem fits_relinks (targets : SpecifierTargets) (h : tree.Over d cs) {found : List Site}
    (hheld : Held tree found) :
    (relinks tree targets found).Fits tree cs := by
  obtain ⟨hinsertions, hstatements⟩ := insertions_relinks tree targets found
  refine ⟨by simp [hinsertions], by simp [hstatements], fun r hr ↦ ?_, fun m hm hreplaced ↦ ?_⟩
  · obtain ⟨s, hs, rfl⟩ := mem_replacements_relinks hr
    have hmem := (hheld s (mem_of_mem_filter hs)).1
    exact (placed_iff.1 (h.placed.of_mem_preorder hmem).2.1).1
  · obtain ⟨text, htext⟩ := Option.isSome_iff_exists.1 hreplaced
    obtain ⟨s, hs, hkey⟩ := mem_replacements_relinks (mem_of_lookup htext)
    obtain ⟨hs, hinternal⟩ := mem_filter.1 hs
    obtain ⟨hmem, hholds⟩ := hheld s hs
    have hvalue : s.1.value ≠ [] := by
      intro hnil
      simp [hnil] at hinternal
    have hwide := start_lt_stop_of_holds h hmem hholds hvalue
    simp only [Node.key, Prod.mk.injEq, NodeKey.mk.injEq] at hkey
    omega

/-! ### Retargeted sites -/

/-- Whether the node of a site **lies in** that of another. -/
def Site.LiesIn (s t : Site) : Prop :=
  t.1.node.start ≤ s.1.node.start ∧ s.1.node.stop ≤ t.1.node.stop

/-- A patch that **retargets** a site: in place of its node it writes the new specifier. -/
def Patch.Retargets (cs : List Char) (targets : SpecifierTargets) (p : Patch) (s : Site) : Prop :=
  p.start = s.1.node.start ∧ p.stop = s.1.node.stop ∧
    Writes cs s.1 (newSpecifier targets s.1.value s.2) p.text

/-- Patches that follow each other and **overlap** are the same. -/
theorem Patch.eq_of_overlap {patches : List Patch} (h : patches.Pairwise (·.stop ≤ ·.start))
    {p q : Patch} (hp : p ∈ patches) (hq : q ∈ patches) (hpq : p.start < q.stop)
    (hqp : q.start < p.stop) : p = q := by
  induction patches with
  | nil => simp at hp
  | cons r patches ih =>
    obtain ⟨hr, h⟩ := pairwise_cons.1 h
    rcases mem_cons.1 hp with rfl | hp'
    · rcases mem_cons.1 hq with rfl | hq'
      · rfl
      · have := hr q hq'
        omega
    · rcases mem_cons.1 hq with rfl | hq'
      · have := hr p hp'
        omega
      · exact ih h hp' hq'

theorem edges_internalSites (found : List Site) :
    (internalSites found).map (fun s ↦ (⟨s.1.value, s.2⟩ : Edge))
      = (found.filterMap Site.edge?).filter Edge.isInternal := by
  induction found with
  | nil => rfl
  | cons s found ih =>
    cases hvalue : s.1.value with
    | nil => simpa [internalSites, Site.edge?, hvalue] using ih
    | cons c value =>
      cases hinternal : isInternal (c :: value) <;>
        simpa [internalSites, Site.edge?, hvalue, hinternal, Edge.isInternal] using ih

/-- What the **patches** of a link do at its sites. They follow each other, each retargets a site,
and every site lies in one. -/
structure Relinks (cs : List Char) (targets : SpecifierTargets) (sites : List Site)
    (patches : List Patch) : Prop where
  ordered : patches.Pairwise (·.stop ≤ ·.start)
  wide : ∀ p ∈ patches, p.start < p.stop
  retargets : ∀ p ∈ patches, ∃ s ∈ sites, p.Retargets cs targets s
  covers : ∀ s ∈ sites, ∃ p ∈ patches, p.start ≤ s.1.node.start ∧ s.1.node.stop ≤ p.stop

variable {sites : List Site} {patches : List Patch}

/-- A site that lies in no other is **retargeted**. -/
theorem Relinks.exists_retargets (h : Relinks cs targets sites patches) {s : Site}
    (hs : s ∈ sites) (hout : ∀ t ∈ sites, s.LiesIn t → t = s) :
    ∃ p ∈ patches, p.Retargets cs targets s := by
  obtain ⟨p, hp, hstart, hstop⟩ := h.covers s hs
  obtain ⟨t, ht, hretargets⟩ := h.retargets p hp
  have heq : t = s := hout t ht ⟨hretargets.1 ▸ hstart, hretargets.2.1 ▸ hstop⟩
  exact ⟨p, hp, heq ▸ hretargets⟩

/-- A site has a patch of its own range **exactly when** no site encloses it. -/
theorem Relinks.exists_patch_iff (h : Relinks cs targets sites patches) {s : Site}
    (hs : s ∈ sites) :
    (∃ p ∈ patches, p.start = s.1.node.start ∧ p.stop = s.1.node.stop) ↔
      ∀ t ∈ sites, s.LiesIn t → t.LiesIn s := by
  obtain ⟨q, hq, hqstart, hqstop⟩ := h.covers s hs
  constructor
  · rintro ⟨p, hp, hstart, hstop⟩ t ht ⟨hst, hts⟩
    -- The patch over the enclosing site overlaps the one at the site, so they are the same.
    obtain ⟨r, hr, hrstart, hrstop⟩ := h.covers t ht
    have hwide := h.wide p hp
    have heq : p = r := Patch.eq_of_overlap h.ordered hp hr (by omega) (by omega)
    subst heq
    exact ⟨by omega, by omega⟩
  · intro hout
    obtain ⟨t, ht, hstart, hstop, -⟩ := h.retargets q hq
    obtain ⟨hts, hst⟩ := hout t ht ⟨by omega, by omega⟩
    exact ⟨q, hq, by omega, by omega⟩

/-- The patches for the edits of a link **relink** its internal sites. -/
theorem relinks_patches (targets : SpecifierTargets) (h : tree.Over d cs) {found : List Site}
    (hheld : Held tree found) :
    Relinks cs targets (internalSites found)
      (tree.root.patches (relinks tree targets found)) := by
  have hwide := (fits_relinks targets h hheld).widths
  refine ⟨pairwise_patches h.placed, fun p hp ↦ ?_, fun p hp ↦ ?_, fun s hs ↦ ?_⟩
  · exact (bounds_of_mem_patches h.placed hwide hp).2.1
  · obtain ⟨-, -, -, m, hm, hstart, hstop, htext⟩ := bounds_of_mem_patches h.placed hwide hp
    obtain ⟨s, hs, hkey⟩ := mem_replacements_relinks (mem_of_lookup htext)
    simp only [Node.key, Prod.mk.injEq, NodeKey.mk.injEq] at hkey
    obtain ⟨⟨hkstart, hkstop, -⟩, hktext⟩ := hkey
    have hwrites := writeSpecifier_eq_relinked targets h
      (hheld s (mem_of_mem_filter hs))
    exact ⟨s, hs, by omega, by omega, hktext ▸ hwrites.2⟩
  · exact exists_patch_of_mem_preorder (isSome_replacement?_relinks hs) h.placed
      (hheld s (mem_of_mem_filter hs)).1

/-- A link whose edits are those at the sites of the tree gives the script with the **patches** for
them. -/
theorem link_of_linkEdits (h : tree.Over d cs) {fs : FileSystem} {importer : Path}
    (hedits : linkEdits fs importer tree targets
      = (Node.gatherAll (edgeAt tree) tree.statements).map (relinks tree targets)) :
    link fs importer tree targets
      = (Node.gatherAll (edgeAt tree) tree.statements).map fun found ↦
          spliced cs (tree.root.patches (relinks tree targets found)) (fun _ ↦ []) 0 (size cs) := by
  rw [link, hedits]
  cases hfound : Node.gatherAll (edgeAt tree) tree.statements with
  | error e => rfl
  | ok found =>
    have hemit := emit_of_fits h.source h.placed
      (fits_relinks targets h (held_gatherAll hfound))
    obtain ⟨hinsertions, hstatements⟩ := insertions_relinks tree targets found
    rw [EditSet.textAt_of_nil hinsertions hstatements, append_nil] at hemit
    simp only [Except.map, bind, Except.bind, SourceTree.emitted, hemit]

/-- A **linked** text is the script with the patches for its sites. -/
theorem link_eq (h : tree.Over .plain cs) (hnames : tree.takesNames = false) (fs : FileSystem)
    (importer : Path) (targets : SpecifierTargets) :
    link fs importer tree targets
      = (Node.gatherAll (edgeAt tree) tree.statements).map fun found ↦
          spliced cs (tree.root.patches (relinks tree targets found)) (fun _ ↦ []) 0 (size cs) :=
  link_of_linkEdits h (linkEdits_eq h hnames fs importer)

/-- A script in which the template of one call holds another call. -/
def nestedScript : List Char := "require(\x60./a$\x7brequire('./b')\x7d\x60);\n".toList

/-- What is left of `nestedScript` when it is linked: only the outer call has a new specifier. -/
def nestedLinked : List Char := "require(\x60./a.cjs$\x7brequire('./b')\x7d\x60);\n".toList

end ScriptTree
