import ScriptTree.Proofs.Surroundings
import ScriptTree.Proofs.TakenNames

/-!
# Edits for imports from packages

An import that takes names from a package of the **dynamic** format is changed: the name for the
package as a whole goes in place of its clause, and a declaration is put after the statement that
the import lies in. It is told here what linking records for one such import, among all else that it
records for the script.

An import may lie deep in a statement. Linking does not get to it if it lies in another import, and
what is recorded for it is lost if it lies in a specifier that is written anew, so it has to stand
alone in this respect. Every import among the statements of a script does.

## Main results

* `link_eq_map`: a script is linked whenever the edits for it are found.
* `standsAlone_of_mem_statements`: imports among the statements stand alone.
* `shimsAt_of_linkEdits`: what linking records for one import.
-/

namespace ScriptTree

open List Option Node
open Node (preorderAll)

/-! ### Numbered statements -/

section Gather

variable {ε α : Type} {site : Nat → Node → Except ε (Option α × Visit)}

/-- What is found in statements is what is found in the **first** ones, and then in the others. -/
theorem exists_of_gatherStatements_append {as bs : List Node} {index : Nat} {found : List α}
    (h : gatherStatements site index (as ++ bs) = .ok found) :
    ∃ before after, found = before ++ after ∧ gatherStatements site index as = .ok before ∧
      gatherStatements site (index + as.length) bs = .ok after := by
  induction as generalizing index found with
  | nil => exact ⟨[], found, rfl, rfl, h⟩
  | cons n as ih =>
    rw [cons_append] at h
    simp only [gatherStatements, bind_eq_ok_iff, pure_eq_ok_iff] at h
    obtain ⟨first, hfirst, rest, hrest, rfl⟩ := h
    obtain ⟨before, after, rfl, hbefore, hafter⟩ := ih hrest
    refine ⟨first ++ before, after, by simp, ?_, ?_⟩
    · simp only [gatherStatements, bind_eq_ok_iff]
      exact ⟨first, hfirst, before, hbefore, rfl⟩
    · rw [length_cons, Nat.add_comm as.length, ← Nat.add_assoc]
      exact hafter

theorem Node.gather_of_skip {here : Node → Except ε (Option α × Visit)} {n : Node} {x : Option α}
    (h : here n = .ok (x, .skip)) : n.gather here = .ok x.toList := by
  cases n
  rw [Node.gather, h]
  rfl

/-- What is found **around** a node or apart from it. -/
def FoundAround (here : Node → Except ε (Option α × Visit)) (t : Node) (ns : List Node) (y : α) :
    Prop :=
  ∃ m ∈ ns, (∃ next, here m = .ok (some y, next)) ∧
    (t ∈ preorderAll m.children ∨ m.stop ≤ t.start ∨ t.stop ≤ m.start)

theorem FoundAround.mono {here : Node → Except ε (Option α × Visit)} {t : Node}
    {ns ms : List Node} {y : α} (h : FoundAround here t ns y) (hsub : ns ⊆ ms) :
    FoundAround here t ms y := by
  obtain ⟨m, hm, hfound⟩ := h
  exact ⟨m, hsub hm, hfound⟩

section Around

variable {here : Node → Except ε (Option α × Visit)} {t : Node} {x : α} {cs : List Char}

mutual

/-- Where a walk gets to a node and goes on **after** it, it finds what is found there, and all else
around the node or apart from it. -/
theorem Node.exists_gather_eq (hskip : here t = .ok (some x, .skip)) :
    ∀ {n : Node} {found : List α}, n.Placed cs → t ∈ n.preorder →
      (∀ k ∈ n.preorder, t ∈ preorderAll k.children →
        ∀ y next, here k = .ok (y, next) → next = .continue) →
      n.gather here = .ok found →
      ∃ first last, found = first ++ x :: last ∧
        ∀ y ∈ first ++ last, FoundAround here t n.preorder y
  | ⟨kind, named, missing, role, start, stop, children⟩, found, hplaced, ht, hgoes, h => by
    rcases mem_cons.1 ht with rfl | hbelow
    · obtain rfl : [x] = found := Except.ok.inj ((gather_of_skip hskip).symm.trans h)
      exact ⟨[], [], rfl, by simp⟩
    · rw [Node.gather, bind_eq_ok_iff] at h
      obtain ⟨⟨y, next⟩, hhere, h⟩ := h
      obtain rfl := hgoes _ (mem_preorder_self _) hbelow y next hhere
      simp only [bind_eq_ok_iff, pure_eq_ok_iff] at h
      obtain ⟨rest, hrest, rfl⟩ := h
      obtain ⟨first, last, rfl, hothers⟩ := exists_gatherAll_eq hskip hplaced.2.2 hbelow
        (fun k hk ↦ hgoes k (mem_cons_of_mem _ hk)) hrest
      refine ⟨y.toList ++ first, last, by simp, fun z hz ↦ ?_⟩
      rw [append_assoc] at hz
      rcases mem_append.1 hz with hz | hz
      · exact ⟨_, mem_preorder_self _, ⟨.continue, by rw [hhere, mem_toList.1 hz]⟩,
          .inl hbelow⟩
      · exact (hothers z hz).mono (subset_cons_self _ _)

theorem Node.exists_gatherAll_eq (hskip : here t = .ok (some x, .skip)) :
    ∀ {ns : List Node} {found : List α} {a b : Nat}, Node.PlacedIn cs a b ns →
      t ∈ preorderAll ns →
      (∀ k ∈ preorderAll ns, t ∈ preorderAll k.children →
        ∀ y next, here k = .ok (y, next) → next = .continue) →
      Node.gatherAll here ns = .ok found →
      ∃ first last, found = first ++ x :: last ∧
        ∀ y ∈ first ++ last, FoundAround here t (preorderAll ns) y
  | [], _, _, _, _, ht, _, _ => by simp [preorderAll] at ht
  | n :: ns, found, _, _, ⟨_, hn, hns⟩, ht, hgoes, h => by
    simp only [Node.gatherAll, bind_eq_ok_iff, pure_eq_ok_iff] at h
    obtain ⟨one, hone, rest, hrest, rfl⟩ := h
    rcases mem_append.1 ht with ht | ht
    · obtain ⟨first, last, rfl, hothers⟩ := exists_gather_eq hskip hn ht
        (fun k hk ↦ hgoes k (mem_append_left _ hk)) hone
      refine ⟨first, last ++ rest, by simp, fun y hy ↦ ?_⟩
      rw [← append_assoc] at hy
      rcases mem_append.1 hy with hy | hy
      · exact (hothers y hy).mono (subset_append_left _ _)
      · obtain ⟨m, hm, hfound⟩ := exists_of_mem_gatherAll hrest hy
        exact ⟨m, mem_append_right _ hm, hfound, .inr (.inr (Nat.le_trans
          (hn.of_mem_preorder ht).2.2 (hns.of_mem_preorderAll hm).1))⟩
    · obtain ⟨first, last, rfl, hothers⟩ := exists_gatherAll_eq hskip hns ht
        (fun k hk ↦ hgoes k (mem_append_right _ hk)) hrest
      refine ⟨one ++ first, last, by simp, fun y hy ↦ ?_⟩
      rw [append_assoc] at hy
      rcases mem_append.1 hy with hy | hy
      · obtain ⟨m, hm, hfound⟩ := exists_of_mem_gather hone hy
        exact ⟨m, mem_append_left _ hm, hfound, .inr (.inl (Nat.le_trans
          (hn.of_mem_preorder hm).2.2 (hns.of_mem_preorderAll ht).1))⟩
      · exact (hothers y hy).mono (subset_append_right _ _)

end

end Around

end Gather

variable {tree : SourceTree} {cs : List Char} {d : Dialect} {targets : SpecifierTargets}
  {fs : FileSystem} {importer : Path} {edits edits' : EditSet} {n m s clause : Node}
  {item : NamedImport} {items : List NamedImport} {f : LinkFound} {found : List LinkFound}

/-! ### What is found in a statement -/

theorem eq_of_namedImport {index : Nat} {specifier : Text}
    (h : namedImport tree n index specifier = .ok (some item)) :
    item.index = index ∧ item.clause ∈ n.children := by
  unfold namedImport at h
  split at h
  · simp at h
  · cases hclause : n.children.find? (fun c ↦ c.named && c.kind == "import_clause") with
    | none => simp [hclause] at h
    | some clause =>
      rw [hclause, bind_eq_ok_iff] at h
      obtain ⟨names, -, h⟩ := h
      cases names with
      | none => simp at h
      | some names =>
        dsimp only at h
        split at h
        · simp at h
        · obtain rfl := Option.some.inj (pure_eq_ok_iff.1 h)
          exact ⟨rfl, mem_of_find?_eq_some hclause⟩

/-- What linking finds **in a statement** with a number. -/
structure LinkFound.FoundIn (f : LinkFound) (s : Node) (index : Nat) : Prop where
  node : f.site.1.node ∈ s.preorder
  taken : ∀ item ∈ f.taken, item.index = index ∧ item.clause ∈ s.preorder

theorem foundIn_of_linkFound (hover : tree.Over .plain cs) (hs : s ∈ tree.root.preorder)
    (hm : m ∈ s.preorder) {index : Nat} {next : Visit}
    (h : linkFound tree targets index m = .ok (some f, next)) : f.FoundIn s index := by
  have hsites : edgeAt tree m = linkSite tree m := edgeAt_eq_linkSite fun k hk ↦
    (hover.fine k (mem_preorder_trans hs (mem_preorder_of_child hm hk))).plain rfl
  have hsite : edgeAt tree m = .ok (some f.site, next) := hsites.trans (linkFound_cases h).1
  refine ⟨mem_preorder_trans hm (holds_of_edgeAt hsite).1, fun item hitem ↦ ?_⟩
  rw [linkFound, bind_eq_ok_iff] at h
  obtain ⟨⟨found, next'⟩, -, h⟩ := h
  cases found with
  | none => simp at h
  | some s' =>
    simp only [bind_eq_ok_iff, pure_eq_ok_iff, Prod.mk.injEq, Option.some.injEq] at h
    obtain ⟨text, -, taken, htaken, rfl, -⟩ := h
    obtain rfl : taken = some item := hitem
    rw [takenAt] at htaken
    split at htaken
    · obtain ⟨hindex, hclause⟩ := eq_of_namedImport htaken
      exact ⟨hindex, mem_preorder_of_child hm hclause⟩
    · simp at htaken

/-! ### Edits for packages -/

/-- Whether a specifier loads a package of the **dynamic** format. -/
def loadsDynamic (fs : FileSystem) (importer : Path) (specifier : Text) : Bool :=
  match externalFormat fs importer specifier with
  | .ok .dynamic => true
  | _ => false

theorem mem_dynamic_iff {specifiers : List Text} {formats : List Format}
    (h : specifiers.mapM (externalFormat fs importer) = .ok formats) (specifier : Text) :
    specifier ∈ ((specifiers.zip formats).filterMap fun x ↦
        if x.2 = .dynamic then some x.1 else none) ↔
      specifier ∈ specifiers ∧ loadsDynamic fs importer specifier = true := by
  induction specifiers generalizing formats with
  | nil => simp
  | cons first specifiers ih =>
    simp only [mapM_cons, bind_eq_ok_iff, pure_eq_ok_iff] at h
    obtain ⟨format, hformat, rest, hrest, rfl⟩ := h
    have hfirst : loadsDynamic fs importer first = decide (format = .dynamic) := by
      rw [loadsDynamic, hformat]
      cases format <;> rfl
    rw [zip_cons_cons, filterMap_cons, mem_cons]
    by_cases hdynamic : format = .dynamic
    · rw [if_pos hdynamic]
      simp only [mem_cons, ih hrest]
      constructor
      · rintro (rfl | ⟨hmem, hloads⟩)
        · exact ⟨.inl rfl, by simp [hfirst, hdynamic]⟩
        · exact ⟨.inr hmem, hloads⟩
      · rintro ⟨rfl | hmem, hloads⟩
        · exact .inl rfl
        · exact .inr ⟨hmem, hloads⟩
    · rw [if_neg hdynamic]
      simp only [ih hrest]
      constructor
      · rintro ⟨hmem, hloads⟩
        exact ⟨.inr hmem, hloads⟩
      · rintro ⟨rfl | hmem, hloads⟩
        · simp [hfirst, hdynamic] at hloads
        · exact ⟨hmem, hloads⟩

/-- The imports from packages of the dynamic format. -/
def dynamicItems (fs : FileSystem) (importer : Path) (items : List NamedImport) :
    List NamedImport :=
  items.filter fun item ↦ loadsDynamic fs importer item.specifier

/-- Only imports from packages of the **dynamic** format are changed. -/
theorem foldlM_of_addInterop (h : addInterop fs importer tree items edits = .ok edits') :
    (dynamicItems fs importer items).foldlM (interopEdits tree) edits = .ok edits' := by
  rw [addInterop, bind_eq_ok_iff] at h
  obtain ⟨formats, hformats, h⟩ := h
  rw [← h]
  congr 1
  refine filter_congr fun item hitem ↦ ?_
  have hmem : item.specifier ∈ (items.map (·.specifier)).eraseDups :=
    mem_eraseDups.2 (mem_map_of_mem hitem)
  have hiff := mem_dynamic_iff hformats item.specifier
  rw [Bool.eq_iff_iff, contains_iff_mem]
  exact ⟨fun hloads ↦ hiff.2 ⟨hmem, hloads⟩, fun hin ↦ (hiff.1 hin).2⟩

/-- The name under which a package is imported **as a whole**. -/
def NamedImport.wholeName (item : NamedImport) : Except Failure Text :=
  match item.defaultLocal with
  | some name => if name.isEmpty then interopBinding item.specifier item.index else .ok name
  | none => interopBinding item.specifier item.index

/-- The edits for **one import** put the name for the whole in place of the clause, and a
declaration after the statement. -/
theorem exists_of_interopEdits (h : interopEdits tree edits item = .ok edits') :
    ∃ whole text, item.wholeName = .ok whole ∧ tree.nodeText item.statement = .ok text ∧
      edits' = (edits.replace item.clause whole).insertAfter item.index
        (interopDeclaration item text whole) := by
  have heq : interopEdits tree edits item = (do
      let whole ← item.wholeName
      let text ← tree.nodeText item.statement
      return (edits.replace item.clause whole).insertAfter item.index
        (interopDeclaration item text whole)) := by
    unfold interopEdits NamedImport.wholeName
    cases item.defaultLocal with
    | none => rfl
    | some name => cases hempty : name.isEmpty <;> simp [hempty, pure, Except.pure]
  simp only [heq, bind_eq_ok_iff, pure_eq_ok_iff] at h
  obtain ⟨whole, hwhole, text, htext, rfl⟩ := h
  exact ⟨whole, text, hwhole, htext, rfl⟩

/-- What the edits for some imports **leave as it is**. -/
structure Shims (items : List NamedImport) (edits edits' : EditSet) : Prop where
  insertions : edits'.insertions = edits.insertions
  declarations : ∃ more, edits'.statementInsertions = edits.statementInsertions ++ more ∧
    more.map (·.1) = items.map fun item ↦ (item.index : Int)
  keys : ∀ r ∈ edits'.replacements, r ∈ edits.replacements ∨ ∃ item ∈ items, r.1 = item.clause.key
  others : ∀ m : Node, (∀ item ∈ items, m.key ≠ item.clause.key) →
    edits'.replacement? m = edits.replacement? m

theorem shims_of_foldlM (h : items.foldlM (interopEdits tree) edits = .ok edits') :
    Shims items edits edits' := by
  refine foldlM_invariant (P := fun done e ↦ Shims done edits e)
    (fun done item e e' hdone hstep ↦ ?_) items []
    ⟨rfl, ⟨[], by simp, rfl⟩, fun r hr ↦ .inl hr, fun m _ ↦ rfl⟩ h
  obtain ⟨whole, text, -, -, rfl⟩ := exists_of_interopEdits hstep
  obtain ⟨more, hmore, hindices⟩ := hdone.declarations
  refine ⟨hdone.insertions, ⟨more ++ [((item.index : Int), interopDeclaration item text whole)],
    ?_, ?_⟩, fun r hr ↦ ?_, fun m hm ↦ ?_⟩
  · show e.statementInsertions ++ _ = _
    rw [hmore, append_assoc]
  · rw [map_append, map_append, hindices]
    rfl
  · rcases EditSet.mem_replacements_replace hr with rfl | hr
    · exact .inr ⟨item, by simp, rfl⟩
    · refine (hdone.keys r hr).imp_right ?_
      rintro ⟨k, hk, hkey⟩
      exact ⟨k, mem_append_left _ hk, hkey⟩
  · show (e.replace item.clause whole).replacement? m = _
    rw [EditSet.replacement?_replace, if_neg (hm item (by simp)),
      hdone.others m fun k hk ↦ hm k (mem_append_left _ hk)]

/-- What is recorded for internal specifiers is at **their nodes**. -/
theorem exists_of_mem_record {r : NodeKey × Text}
    (h : r ∈ (found.foldl LinkFound.record edits).replacements) :
    r ∈ edits.replacements ∨ ∃ f ∈ found, f.text.isSome ∧ r.1 = f.site.1.node.key := by
  induction found generalizing edits with
  | nil => exact .inl h
  | cons f found ih =>
    rcases ih h with h | ⟨g, hg, hrecorded⟩
    · unfold LinkFound.record at h
      cases htext : f.text with
      | none => exact .inl (by simpa [htext] using h)
      | some text =>
        rw [htext] at h
        rcases EditSet.mem_replacements_replace h with rfl | h
        · exact .inr ⟨f, mem_cons_self, by simp [htext], rfl⟩
        · exact .inl h
    · exact .inr ⟨g, mem_cons_of_mem _ hg, hrecorded⟩

theorem insertions_record (found : List LinkFound) (edits : EditSet) :
    (found.foldl LinkFound.record edits).insertions = edits.insertions ∧
      (found.foldl LinkFound.record edits).statementInsertions = edits.statementInsertions := by
  induction found generalizing edits with
  | nil => exact ⟨rfl, rfl⟩
  | cons f found ih =>
    have hrecord : (f.record edits).insertions = edits.insertions ∧
        (f.record edits).statementInsertions = edits.statementInsertions := by
      unfold LinkFound.record
      cases f.text <;> exact ⟨rfl, rfl⟩
    rw [foldl_cons, (ih _).1, (ih _).2]
    exact hrecord

/-! ### Which nodes are replaced -/

/-- Edits that replace only nodes with a property, and put texts in only **after statements**. -/
structure EditSet.Touches (edits : EditSet) (tree : SourceTree) (P : Node → Prop) : Prop where
  insertions : edits.insertions = []
  numbers : ∀ x ∈ edits.statementInsertions, ∃ i : Nat, x.1 = i ∧ i < tree.statements.length
  nodes : ∀ r ∈ edits.replacements, ∃ q ∈ preorderAll tree.root.children, r.1 = q.key ∧ P q

/-- The texts for the statement with a number, among texts for statements. -/
def textsAfter (texts : List (Int × Text)) (index : Nat) : List Text :=
  (texts.filter (·.1 = (index : Int))).map (·.2)

/-- The texts that are put **after** the statement with a number. -/
def EditSet.after (edits : EditSet) (index : Nat) : List Text :=
  textsAfter edits.statementInsertions index

theorem textsAfter_append (texts others : List (Int × Text)) (index : Nat) :
    textsAfter (texts ++ others) index = textsAfter texts index ++ textsAfter others index := by
  rw [textsAfter, filter_append, map_append]
  rfl

theorem exists_item_of_numbers {more : List (Int × Text)}
    (hmore : more.map (·.1) = items.map fun item ↦ (item.index : Int)) {x : Int × Text}
    (hx : x ∈ more) : ∃ item ∈ items, x.1 = item.index := by
  have hmem : x.1 ∈ more.map (·.1) := mem_map_of_mem hx
  rw [hmore] at hmem
  obtain ⟨item, hitem, heq⟩ := mem_map.1 hmem
  exact ⟨item, hitem, heq.symm⟩

theorem textsAfter_eq_nil {more : List (Int × Text)} {index : Nat}
    (hmore : more.map (·.1) = items.map fun item ↦ (item.index : Int))
    (hitems : ∀ item ∈ items, item.index ≠ index) : textsAfter more index = [] := by
  rw [textsAfter, map_eq_nil_iff]
  refine filter_eq_nil_iff.2 fun x hx hindex ↦ ?_
  obtain ⟨item, hitem, heq⟩ := exists_item_of_numbers hmore hx
  have hindex : x.1 = (index : Int) := by simpa using hindex
  exact hitems item hitem (by omega)

/-- A statement by its **number**. -/
theorem statement?_natCast (statements : List Node) (i : Nat) :
    EditSet.statement? statements (i : Int) = statements[i]? := by
  simp [EditSet.statement?]

variable {P : Node → Prop}

theorem touches_record (h : ∀ f ∈ found, f.text.isSome →
      f.site.1.node ∈ preorderAll tree.root.children ∧ P f.site.1.node) :
    (found.foldl LinkFound.record {}).Touches tree P := by
  obtain ⟨hinsertions, hstatements⟩ := insertions_record found {}
  refine ⟨hinsertions, by simp [hstatements], fun r hr ↦ ?_⟩
  rcases exists_of_mem_record hr with hr | ⟨f, hf, hsome, hkey⟩
  · simp at hr
  · obtain ⟨hbelow, hnode⟩ := h f hf hsome
    exact ⟨_, hbelow, hkey, hnode⟩

/-- Edits for imports touch their **clauses**, too. -/
theorem EditSet.Touches.shims (h : edits.Touches tree P) (hshims : Shims items edits edits')
    (hitems : ∀ item ∈ items, item.index < tree.statements.length ∧
      item.clause ∈ preorderAll tree.root.children ∧ P item.clause) :
    edits'.Touches tree P := by
  refine ⟨hshims.insertions.trans h.insertions, fun x hx ↦ ?_, fun r hr ↦ ?_⟩
  · obtain ⟨more, hmore, hnumbers⟩ := hshims.declarations
    rw [hmore] at hx
    rcases mem_append.1 hx with hx | hx
    · exact h.numbers x hx
    · obtain ⟨item, hitem, hindex⟩ := exists_item_of_numbers hnumbers hx
      exact ⟨item.index, hindex, (hitems item hitem).1⟩
  · rcases hshims.keys r hr with hr | ⟨item, hitem, hkey⟩
    · exact h.nodes r hr
    · obtain ⟨-, hbelow, hclause⟩ := hitems item hitem
      exact ⟨_, hbelow, hkey, hclause⟩

theorem EditSet.Touches.exists_node (h : edits.Touches tree P)
    (hm : (edits.replacement? m).isSome) :
    ∃ q ∈ preorderAll tree.root.children, m.key = q.key ∧ P q := by
  obtain ⟨text, htext⟩ := isSome_iff_exists.1 hm
  exact h.nodes _ (mem_of_lookup htext)

/-- Edits that touch nodes of a script **fit** it. -/
theorem EditSet.Touches.fits (h : edits.Touches tree P) (hover : tree.Over d cs) :
    edits.Fits tree cs := by
  refine ⟨by simp [h.insertions], fun x hx ↦ ?_, fun r hr ↦ ?_, fun m _ hreplaced ↦ ?_⟩
  · obtain ⟨i, hi, hlength⟩ := h.numbers x hx
    rw [hi, statement?_natCast, getElem?_eq_getElem hlength]
    rfl
  · obtain ⟨q, hq, hkey, -⟩ := h.nodes r hr
    rw [hkey]
    exact (placed_iff.1
      (hover.placed.of_mem_preorder (mem_preorder_of_below hq)).2.1).1
  · obtain ⟨q, hq, hkey, -⟩ := h.exists_node hreplaced
    have hwidth := hover.wide q hq
    simp only [Node.key, NodeKey.mk.injEq] at hkey
    omega

/-- **Linking** touches nodes of the script. -/
theorem touches_linkEdits (hover : tree.Over .plain cs)
    (h : linkEdits fs importer tree targets = .ok edits) : edits.Touches tree fun _ ↦ True := by
  rw [linkEdits_eq_found, bind_eq_ok_iff] at h
  obtain ⟨found, hfound, hinterop⟩ := h
  have hin (f) (hf : f ∈ found) : ∃ i s, tree.statements[i]? = some s ∧ f.FoundIn s i := by
    obtain ⟨i, s, hs, m, hm, next, hsite⟩ := exists_statement_of_mem hfound hf
    rw [Nat.zero_add] at hsite
    exact ⟨i, s, hs, foundIn_of_linkFound hover (SourceTree.mem_preorder_of_statements
      (mem_preorderAll_of_mem (mem_of_getElem? hs))) hm hsite⟩
  have hbelow {s q : Node} {i : Nat} (hs : tree.statements[i]? = some s) (hq : q ∈ s.preorder) :
      q ∈ preorderAll tree.root.children :=
    mem_preorderAll.2
      ⟨s, (Transform.statements_sublist tree).subset (mem_of_getElem? hs), hq⟩
  refine (touches_record fun f hf _ ↦ ?_).shims (shims_of_foldlM (foldlM_of_addInterop hinterop))
    fun item hitem ↦ ?_
  · obtain ⟨i, s, hs, hfoundIn⟩ := hin f hf
    exact ⟨hbelow hs hfoundIn.node, trivial⟩
  · obtain ⟨f, hf, htaken⟩ := mem_filterMap.1 (mem_of_mem_filter hitem)
    obtain ⟨i, s, hs, hfoundIn⟩ := hin f hf
    obtain ⟨rfl, hclause⟩ := hfoundIn.taken item htaken
    exact ⟨(List.getElem?_eq_some_iff.1 hs).1, hbelow hs hclause, trivial⟩

/-- A script is **linked** whenever the edits for it are found. -/
theorem link_eq_map (hover : tree.Over .plain cs) (fs : FileSystem) (importer : Path)
    (targets : SpecifierTargets) :
    link fs importer tree targets = (linkEdits fs importer tree targets).map fun edits ↦
      spliced cs (tree.root.patches edits) (edits.textAt tree.statements) 0 (Utf8.size cs)
        ++ edits.textAt tree.statements (Utf8.size cs) := by
  rw [link]
  cases hedits : linkEdits fs importer tree targets with
  | error e => rfl
  | ok edits =>
    have hfits := (touches_linkEdits hover hedits).fits hover
    simp only [bind, Except.bind, SourceTree.emitted, emit_of_fits hover.source hover.placed hfits]
    rfl

/-! ### Imports that stand alone -/

/-- An import that **stands alone**: it lies in no other import, and apart from the specifiers of
what it lies in. -/
def StandsAlone (tree : SourceTree) (n : Node) : Prop :=
  ∀ m ∈ tree.root.preorder, n ∈ preorderAll m.children → m.kind ≠ "import_statement" ∧
    ∀ site next, linkSite tree m = .ok (some site, next) →
      site.1.node.stop ≤ n.start ∨ n.stop ≤ site.1.node.start

theorem next_of_linkSite {found : Option Site} {next : Visit} (hkind : m.kind ≠ "import_statement")
    (h : linkSite tree m = .ok (found, next)) : next = .continue := by
  unfold linkSite at h
  split at h
  · next heq => exact absurd heq hkind
  · simp only [bind_eq_ok_iff, pure_eq_ok_iff] at h
    obtain ⟨_, -, -, rfl⟩ := h
    rfl
  · simp only [bind_eq_ok_iff, pure_eq_ok_iff] at h
    obtain ⟨_, -, -, rfl⟩ := h
    rfl
  · simp only [Except.ok.injEq, Prod.mk.injEq] at h
    exact h.2.symm

/-- An import **among the statements** of a script stands alone. -/
theorem standsAlone_of_mem_statements (hover : tree.Over d cs) (hn : n ∈ tree.statements)
    (hroot : tree.root.kind = "program") : StandsAlone tree n := by
  have hwidth := Transform.start_lt_stop_of_mem_statements hover (mem_preorderAll_of_mem hn)
  have hchild := (Transform.statements_sublist tree).subset hn
  intro m hm hbelow
  rcases mem_preorder.1 hm with rfl | hm
  · refine ⟨by rw [hroot]; decide, fun site next hsite ↦ ?_⟩
    simp [linkSite, hroot] at hsite
  · obtain ⟨c, hc, hmc⟩ := mem_preorderAll.1 hm
    have hnc := mem_preorder_trans hmc (mem_preorder_of_below hbelow)
    have hplaced := (placed_iff.1 hover.placed).2.2
    rcases Transform.apart_of_mem hplaced hc hchild with rfl | hlies
    · have hshort := Transform.length_preorder_lt hbelow
      have hlong := Transform.length_preorder_le_of_mem hmc
      omega
    · obtain ⟨hstart, -, hstop⟩ := (hplaced.of_mem hc).2.1.of_mem_preorder hnc
      omega

/-! ### What is found aside -/

theorem Node.PlacedIn.pairwise {ns : List Node} {a b : Nat} (h : Node.PlacedIn cs a b ns) :
    ns.Pairwise (·.stop ≤ ·.start) := by
  induction ns generalizing a with
  | nil => exact .nil
  | cons n ns ih => exact .cons (fun m hm ↦ (h.2.2.of_mem hm).1) (ih h.2.2)

section Split

variable {earlier later : List Node}

/-- The other statements lie **before** a statement or after it. -/
theorem apart_of_split (hover : tree.Over d cs) (hsplit : tree.statements = earlier ++ s :: later) :
    (∀ r ∈ earlier, r.stop ≤ s.start) ∧ ∀ r ∈ later, s.stop ≤ r.start := by
  have hpairwise := (Transform.placedIn_statements hover).pairwise
  rw [hsplit, pairwise_append] at hpairwise
  obtain ⟨-, hafter, hbefore⟩ := hpairwise
  exact ⟨fun r hr ↦ hbefore r hr s mem_cons_self, (pairwise_cons.1 hafter).1⟩

/-- What linking finds **aside** from an import in a statement: it is for nodes that lie apart from
the import, and for other statements if the import is the statement. -/
structure LinkFound.Aside (tree : SourceTree) (s n : Node) (index : Nat) (f : LinkFound) :
    Prop where
  node : f.site.1.node ∈ preorderAll tree.root.children ∧
    (f.site.1.node.stop ≤ n.start ∨ n.stop ≤ f.site.1.node.start)
  taken : ∀ item ∈ f.taken, item.clause ∈ preorderAll tree.root.children ∧
    (item.clause.stop ≤ n.start ∨ n.stop ≤ item.clause.start) ∧
    item.index < tree.statements.length ∧ (n = s → item.index ≠ index)

/-- What is found in a node apart from an import is found **aside**. -/
theorem LinkFound.FoundIn.aside {index i : Nat} (h : f.FoundIn m index) (hover : tree.Over d cs)
    (hm : m ∈ preorderAll tree.statements) (hapart : m.stop ≤ n.start ∨ n.stop ≤ m.start)
    (hlength : index < tree.statements.length) (hne : n = s → index ≠ i) : f.Aside tree s n i := by
  have hlies {q : Node} (hq : q ∈ m.preorder) :
      q ∈ preorderAll tree.root.children ∧ (q.stop ≤ n.start ∨ n.stop ≤ q.start) := by
    obtain ⟨hstart, -, hstop⟩ := (hover.placed.of_mem_preorder
      (SourceTree.mem_preorder_of_statements hm)).2.1.of_mem_preorder hq
    exact ⟨mem_preorderAll_trans
      (Transform.mem_preorderAll_mono (Transform.statements_sublist tree).subset hm) hq, by omega⟩
  refine ⟨hlies h.node, fun item hitem ↦ ?_⟩
  obtain ⟨rfl, hclause⟩ := h.taken item hitem
  obtain ⟨hbelow, hclauseApart⟩ := hlies hclause
  exact ⟨hbelow, hclauseApart, hlength, hne⟩

/-- What is found **in the statement** of an import that stands alone is found aside from it. -/
theorem aside_of_foundAround (hover : tree.Over .plain cs) (halone : StandsAlone tree n)
    {index : Nat} (hs : tree.statements[index]? = some s)
    (h : FoundAround (linkFound tree targets index) n s.preorder f) : f.Aside tree s n index := by
  obtain ⟨m, hm, ⟨next, hfound⟩, hlies⟩ := h
  have hmem := mem_of_getElem? hs
  have hbelow : m ∈ preorderAll tree.statements := mem_preorderAll.2 ⟨s, hmem, hm⟩
  have hroot := SourceTree.mem_preorder_of_statements hbelow
  have hin := foundIn_of_linkFound hover hroot m.mem_preorder_self hfound
  have hwidth := Transform.start_lt_stop_of_mem_statements hover hbelow
  obtain ⟨hstart, -, hstop⟩ :=
    ((Transform.placedIn_statements hover).of_mem hmem).2.1.of_mem_preorder hm
  rcases hlies with haround | hapart
  · obtain ⟨hkind, hspecifier⟩ := halone m hroot haround
    have hcases := linkFound_cases hfound
    refine ⟨⟨mem_preorderAll_trans
      (Transform.mem_preorderAll_mono (Transform.statements_sublist tree).subset hbelow) hin.node,
      hspecifier _ _ hcases.1⟩, fun item hitem ↦ ?_⟩
    rw [(hcases.2 f rfl).2 hkind] at hitem
    simp at hitem
  · refine hin.aside hover hbelow hapart (List.getElem?_eq_some_iff.1 hs).1 fun heq ↦ ?_
    subst heq
    omega

/-- What linking finds in a script: in an **import** that stands alone, what it takes, and all else
aside. -/
theorem exists_linkRecords_eq (hover : tree.Over .plain cs)
    (hsplit : tree.statements = earlier ++ s :: later) (hn : n ∈ s.preorder)
    (halone : StandsAlone tree n) (hfound : tree.linkRecords targets = .ok found) {own : LinkFound}
    (hown : linkFound tree targets earlier.length n = .ok (some own, .skip)) :
    ∃ first last, found = first ++ own :: last ∧
      (∀ f ∈ first, f.Aside tree s n earlier.length) ∧
      ∀ f ∈ last, f.Aside tree s n earlier.length := by
  rw [SourceTree.linkRecords, hsplit] at hfound
  obtain ⟨first, rest, rfl, hfirst, hrest⟩ := exists_of_gatherStatements_append hfound
  simp only [gatherStatements, bind_eq_ok_iff, pure_eq_ok_iff, Nat.zero_add] at hrest
  obtain ⟨here, hhere, last, hlast, rfl⟩ := hrest
  have hs : tree.statements[earlier.length]? = some s := by simp [hsplit]
  have hmem := mem_of_getElem? hs
  have hplaced := ((Transform.placedIn_statements hover).of_mem hmem).2.1
  obtain ⟨hbefore, hafter⟩ := apart_of_split hover hsplit
  obtain ⟨hstart, -, hstop⟩ := hplaced.of_mem_preorder hn
  have hroot {r : Node} (hr : r ∈ tree.statements) : r ∈ tree.root.preorder :=
    SourceTree.mem_preorder_of_statements (mem_preorderAll_of_mem hr)
  -- The walk gets to the import, for only imports are passed over.
  have hgoes (k) (hk : k ∈ s.preorder) (hbelow : n ∈ preorderAll k.children) (y next)
      (hsite : linkFound tree targets earlier.length k = .ok (y, next)) : next = .continue :=
    next_of_linkSite (halone k (mem_preorder_trans (hroot hmem) hk) hbelow).1
      (linkFound_cases hsite).1
  obtain ⟨first', last', rfl, hothers⟩ := exists_gather_eq hown hplaced hn hgoes hhere
  have hinside (f) (hf : f ∈ first' ++ last') : f.Aside tree s n earlier.length :=
    aside_of_foundAround hover halone hs (hothers f hf)
  -- What is found in another statement is apart from the statement of the import.
  have helse {f : LinkFound} {r k : Node} {j : Nat} {next : Visit}
      (hr : tree.statements[j]? = some r) (hk : k ∈ r.preorder)
      (hsite : linkFound tree targets j k = .ok (some f, next))
      (hlies : r.stop ≤ s.start ∨ s.stop ≤ r.start) (hne : j ≠ earlier.length) :
      f.Aside tree s n earlier.length := by
    have hr' := mem_of_getElem? hr
    exact (foundIn_of_linkFound hover (hroot hr') hk hsite).aside hover
      (mem_preorderAll_of_mem hr') (by omega) (List.getElem?_eq_some_iff.1 hr).1 fun _ ↦ hne
  refine ⟨first ++ first', last' ++ last, by simp, fun f hf ↦ ?_, fun f hf ↦ ?_⟩
  · rcases mem_append.1 hf with hf | hf
    · obtain ⟨j, r, hr, k, hk, next, hsite⟩ := exists_statement_of_mem hfirst hf
      have hj := (List.getElem?_eq_some_iff.1 hr).1
      rw [Nat.zero_add] at hsite
      refine helse ?_ hk hsite (.inl (hbefore r (mem_of_getElem? hr))) (Nat.ne_of_lt hj)
      rw [hsplit, getElem?_append_left hj]
      exact hr
    · exact hinside f (mem_append_left _ hf)
  · rcases mem_append.1 hf with hf | hf
    · exact hinside f (mem_append_right _ hf)
    · obtain ⟨j, r, hr, k, hk, next, hsite⟩ := exists_statement_of_mem hlast hf
      have hj : earlier.length < earlier.length + 1 + j := by omega
      refine helse ?_ hk hsite (.inr (hafter r (mem_of_getElem? hr))) (Nat.ne_of_gt hj)
      rw [hsplit, getElem?_append_right hj.le, Nat.add_assoc,
        Nat.add_sub_cancel_left, Nat.add_comm 1]
      exact hr

/-! ### What linking records for an import -/

/-- A node that lies **aside** from an import: apart from it, or as the clause of what it takes. -/
def LiesAside (n : Node) (own : List NamedImport) (q : Node) : Prop :=
  q.stop ≤ n.start ∨ n.stop ≤ q.start ∨ ∃ item ∈ own, q = item.clause

/-- Edits that change **one import** only by what it takes from a package: the name for the whole
goes in place of its clause, and its declaration is among the texts after its statement. -/
structure ShimsAt (tree : SourceTree) (edits : EditSet) (s n : Node) (index : Nat)
    (taken : Option NamedImport) : Prop
    extends edits.Touches tree (LiesAside n taken.toList) where
  exists_after : ∃ first declared last, edits.after index = first ++ declared ++ last ∧
    (n = s → first = [] ∧ last = []) ∧ (taken = none → declared = []) ∧
    ∀ item ∈ taken, ∃ whole text, item.wholeName = .ok whole ∧
      tree.nodeText item.statement = .ok text ∧ edits.replacement? item.clause = some whole ∧
      declared = [interopDeclaration item text whole]

/-- Only imports from packages of the **dynamic** format are changed: the edits of a link are those
for its records, then for the imports before one, for this one and for those after it. -/
theorem exists_of_linkEdits {first last : List LinkFound} {own : LinkFound}
    (hfound : tree.linkRecords targets = .ok (first ++ own :: last))
    (hlink : linkEdits fs importer tree targets = .ok edits)
    (hdynamic : ∀ item ∈ own.taken, loadsDynamic fs importer item.specifier = true) :
    ∃ edits₁ edits₂,
      (dynamicItems fs importer (first.filterMap (·.taken))).foldlM (interopEdits tree)
        ((first ++ own :: last).foldl LinkFound.record {}) = .ok edits₁ ∧
      own.taken.toList.foldlM (interopEdits tree) edits₁ = .ok edits₂ ∧
      (dynamicItems fs importer (last.filterMap (·.taken))).foldlM (interopEdits tree) edits₂
        = .ok edits := by
  rw [linkEdits_eq_found, bind_eq_ok_iff] at hlink
  obtain ⟨found, hfound', hinterop⟩ := hlink
  obtain rfl : first ++ own :: last = found := Except.ok.inj (hfound.symm.trans hfound')
  have hown : dynamicItems fs importer own.taken.toList = own.taken.toList :=
    filter_eq_self.2 fun item hitem ↦ hdynamic item (mem_toList.1 hitem)
  have hitems : dynamicItems fs importer ((first ++ own :: last).filterMap (·.taken))
      = dynamicItems fs importer (first.filterMap (·.taken))
        ++ (own.taken.toList ++ dynamicItems fs importer (last.filterMap (·.taken))) := by
    rw [← hown, dynamicItems, dynamicItems, dynamicItems, dynamicItems, ← filter_append]
    cases htaken : own.taken <;> simp [htaken]
  have hfold := foldlM_of_addInterop hinterop
  simp only [hitems, foldlM_append, bind_eq_ok_iff] at hfold
  obtain ⟨edits₁, hfirst, edits₂, hrest⟩ := hfold
  exact ⟨edits₁, edits₂, hfirst, hrest⟩

section Others

variable {others : List LinkFound} {own : List NamedImport} {index : Nat}
  (hothers : ∀ f ∈ others, f.Aside tree s n index)
include hothers

theorem aside_of_mem_dynamicItems
    (hitem : item ∈ dynamicItems fs importer (others.filterMap (·.taken))) :
    item.clause ∈ preorderAll tree.root.children ∧
      (item.clause.stop ≤ n.start ∨ n.stop ≤ item.clause.start) ∧
      item.index < tree.statements.length ∧ (n = s → item.index ≠ index) := by
  obtain ⟨f, hf, hitem⟩ := mem_filterMap.1 (mem_of_mem_filter hitem)
  exact (hothers f hf).taken item hitem

/-- The edits for what is found aside touch nodes that **lie aside**. -/
theorem EditSet.Touches.shims_aside (h : edits.Touches tree (LiesAside n own))
    (hshims : Shims (dynamicItems fs importer (others.filterMap (·.taken))) edits edits') :
    edits'.Touches tree (LiesAside n own) := by
  refine h.shims hshims fun item hitem ↦ ?_
  obtain ⟨hclause, hapart, hlength, -⟩ := aside_of_mem_dynamicItems hothers hitem
  exact ⟨hlength, hclause, hapart.imp_right .inl⟩

/-- The edits for what is found aside leave a node **of the import** as it is. -/
theorem Shims.replacement?_of_aside (hover : tree.Over d cs) (hn : n ∈ preorderAll tree.statements)
    (hm : m ∈ n.preorder)
    (hshims : Shims (dynamicItems fs importer (others.filterMap (·.taken))) edits edits') :
    edits'.replacement? m = edits.replacement? m := by
  refine hshims.others m fun other hother hkey ↦ ?_
  have hapart := (aside_of_mem_dynamicItems hothers hother).2.1
  have hwidth := Transform.start_lt_stop_of_mem_statements hover (mem_preorderAll_trans hn hm)
  obtain ⟨hstart, -, hstop⟩ := (hover.placed.of_mem_preorder
    (SourceTree.mem_preorder_of_statements hn)).2.1.of_mem_preorder hm
  simp only [Node.key, NodeKey.mk.injEq] at hkey
  omega

end Others

/-- Linking changes an **import** that stands alone by what it takes from a package of the dynamic
format. -/
theorem shimsAt_of_linkEdits (hover : tree.Over .plain cs)
    (hsplit : tree.statements = earlier ++ s :: later) (hn : n ∈ s.preorder)
    (halone : StandsAlone tree n) (hlink : linkEdits fs importer tree targets = .ok edits)
    {own : LinkFound} (hown : linkFound tree targets earlier.length n = .ok (some own, .skip))
    (htext : own.text = none)
    (hdynamic : ∀ item ∈ own.taken, loadsDynamic fs importer item.specifier = true)
    (htaken : ∀ item ∈ own.taken, item.clause ∈ n.children ∧ item.index = earlier.length) :
    ShimsAt tree edits s n earlier.length own.taken := by
  obtain ⟨found, hfound⟩ : ∃ found, tree.linkRecords targets = .ok found := by
    rw [linkEdits_eq_found, bind_eq_ok_iff] at hlink
    obtain ⟨found, hfound, -⟩ := hlink
    exact ⟨found, hfound⟩
  obtain ⟨first, last, rfl, hfirst, hlast⟩ :=
    exists_linkRecords_eq hover hsplit hn halone hfound hown
  obtain ⟨edits₁, edits₂, hfirstFold, hownFold, hlastFold⟩ :=
    exists_of_linkEdits hfound hlink hdynamic
  have hfirstShims := shims_of_foldlM hfirstFold
  have hownShims := shims_of_foldlM hownFold
  have hlastShims := shims_of_foldlM hlastFold
  have hbelow : n ∈ preorderAll tree.statements :=
    mem_preorderAll.2 ⟨s, by simp [hsplit], hn⟩
  -- What is recorded lies aside, for nothing is recorded in the import.
  have hrecorded (f) (hf : f ∈ first ++ own :: last) (hsome : f.text.isSome) :
      f.Aside tree s n earlier.length := by
    rcases mem_append.1 hf with hf | hf
    · exact hfirst f hf
    · rcases mem_cons.1 hf with rfl | hf
      · simp [htext] at hsome
      · exact hlast f hf
  have hrecord : ((first ++ own :: last).foldl LinkFound.record {}).Touches tree
      (LiesAside n own.taken.toList) := by
    refine touches_record fun f hf hsome ↦ ?_
    obtain ⟨hnode, hapart⟩ := (hrecorded f hf hsome).node
    exact ⟨hnode, hapart.imp_right .inl⟩
  have htouches : edits.Touches tree (LiesAside n own.taken.toList) := by
    refine EditSet.Touches.shims_aside hlast
      ((hrecord.shims_aside hfirst hfirstShims).shims hownShims fun item hitem ↦ ?_) hlastShims
    obtain ⟨hclause, hindex⟩ := htaken item (mem_toList.1 hitem)
    refine ⟨?_, Transform.mem_preorderAll_mono (Transform.statements_sublist tree).subset
      (mem_preorderAll_trans hbelow (mem_preorder_of_mem_children hclause)),
      .inr (.inr ⟨item, hitem, rfl⟩)⟩
    rw [hsplit, length_append, length_cons]
    omega
  obtain ⟨firstMore, hfirstMore, hfirstNumbers⟩ := hfirstShims.declarations
  obtain ⟨ownMore, hownMore, hownNumbers⟩ := hownShims.declarations
  obtain ⟨lastMore, hlastMore, hlastNumbers⟩ := hlastShims.declarations
  have hafter : edits.after earlier.length
      = textsAfter firstMore earlier.length ++ textsAfter ownMore earlier.length
        ++ textsAfter lastMore earlier.length := by
    rw [EditSet.after, hlastMore, hownMore, hfirstMore, (insertions_record _ _).2, nil_append,
      textsAfter_append, textsAfter_append]
  refine ⟨htouches, _, _, _, hafter, fun heq ↦ ⟨?_, ?_⟩, fun hnone ↦ ?_, fun item hone ↦ ?_⟩
  · exact textsAfter_eq_nil hfirstNumbers fun item hitem ↦
      (aside_of_mem_dynamicItems hfirst hitem).2.2.2 heq
  · exact textsAfter_eq_nil hlastNumbers fun item hitem ↦
      (aside_of_mem_dynamicItems hlast hitem).2.2.2 heq
  · exact textsAfter_eq_nil hownNumbers (by simp [hnone])
  · rw [mem_def.1 hone, toList_some, foldlM_cons, bind_eq_ok_iff] at hownFold
    obtain ⟨edits₃, hstep, hrest⟩ := hownFold
    obtain rfl : edits₃ = edits₂ := by simpa using hrest
    obtain ⟨whole, text, hwhole, hnodeText, rfl⟩ := exists_of_interopEdits hstep
    obtain ⟨hclause, hindex⟩ := htaken item hone
    refine ⟨whole, text, hwhole, hnodeText, ?_, ?_⟩
    · rw [hlastShims.replacement?_of_aside hlast hover hbelow
        (mem_preorder_of_mem_children hclause)]
      show (edits₁.replace item.clause whole).replacement? item.clause = some whole
      rw [EditSet.replacement?_replace, if_pos rfl]
    · obtain rfl : [((item.index : Int), interopDeclaration item text whole)] = ownMore :=
        append_cancel_left hownMore
      simp [textsAfter, hindex]

end Split

end ScriptTree
