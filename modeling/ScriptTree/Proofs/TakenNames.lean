import ScriptTree.Proofs.Bindings
import ScriptTree.Proofs.Records

/-!
# Names taken from a package

A name that is imported from a package of the dynamic format stands for **the package as a whole**
or for one of its properties; it stands for the whole when the name in the package is `default`,
however that is written. The whole is imported under one name, and a declaration takes the other
names out of it, each as a property. A clause has to be divided accordingly: its first binding that
is written as one for the whole gives the name for the whole, and all others are left to be taken as
properties. The names are the same then. The values are, unless a binding for the whole is left.

## Main results

* `ofParts_eq`, `namedImport_eq`: what is read off a clause is how its bindings are divided.
* `perm_names_shimBindings`: the names are the same.
* `shimBindings_perm_iff`: when the values are.
-/

namespace ScriptTree

open Transform (ownText)

/-! ### What names stand for -/

/-- What a name **stands for** that is taken from a package: the whole, or a property of it. -/
inductive Taken where
  | whole
  | property (key : Text)
  deriving DecidableEq

/-- The **key** that a name means, be it quoted or not, and with its escapes. -/
def nameKey (written : Text) : Text :=
  let quoted := written.head? = some (.scalar '\'') ∨ written.head? = some (.scalar '"')
  let body := if quoted then (written.drop 1).dropLast else written
  match unescape body with
  | .ok key => key
  | .error _ => body

/-- What a name in a package stands for. -/
def Taken.ofName (written : Text) : Taken :=
  if nameKey written = ("default" : Text) then .whole else .property (nameKey written)

namespace Binding

variable (cs : List Char) (b : Binding)

/-- The name that a binding binds. -/
def localName : Text := ownText cs b.bound

/-- The name in the package, as it is written, if the binding stands in the list. -/
def written : Option Text := b.source.map (ownText cs)

/-- What a binding **stands for**. -/
def taken : Taken := (b.written cs).elim .whole .ofName

/-- Whether a binding is **written** as one for the whole. -/
def namesWhole : Bool := (b.written cs).all (ClauseNames.defaultSpellings.contains ·)

/-- The names of a binding in the list: in the package, and in the script. -/
def names : Text × Text := ((b.written cs).getD [], b.localName cs)

end Binding

variable {cs : List Char} {d : Dialect} {tree : SourceTree} {clause part item n : Node}
  {b : Binding} {bs : List Binding}

theorem nameKey_of_mem_defaultSpellings {written : Text}
    (h : written ∈ ClauseNames.defaultSpellings) : nameKey written = "default" := by
  revert written
  decide

/-- What is written as a binding for the whole **stands for** the whole. -/
theorem Binding.taken_of_namesWhole (h : b.namesWhole cs = true) : b.taken cs = .whole := by
  rw [namesWhole] at h
  rw [taken]
  cases hwritten : b.written cs with
  | none => rfl
  | some written =>
    rw [hwritten, Option.all_some, List.contains_iff_mem] at h
    rw [Option.elim_some, Taken.ofName, if_pos (nameKey_of_mem_defaultSpellings h)]

/-! ### Bindings one after the other -/

/-- The names of a clause with those of one more binding. -/
def ClauseNames.take (cs : List Char) (names : ClauseNames) (b : Binding) : ClauseNames :=
  match b.written cs with
  | none => { names with defaultLocal := some (b.localName cs) }
  | some written => names.add written (b.localName cs)

/-- The binding that gives the name for the **whole**. -/
def wholeOf (cs : List Char) (bs : List Binding) : Option Binding := bs.find? (·.namesWhole cs)

/-- The bindings that are **left** to be taken as properties. -/
def leftOf (cs : List Char) (bs : List Binding) : List Binding := bs.eraseP (·.namesWhole cs)

theorem ClauseNames.foldl_take_of_some {names : ClauseNames} {name : Text}
    (hlisted : ∀ b ∈ bs, b.isListed = true) (hdefault : names.defaultLocal = some name) :
    bs.foldl (take cs) names
      = { names with bindings := names.bindings ++ bs.map (·.names cs) } := by
  induction bs generalizing names with
  | nil => simp
  | cons b bs ih =>
    obtain ⟨source, hsource⟩ := Option.isSome_iff_exists.1 (hlisted b List.mem_cons_self)
    have hstep : names.take cs b
        = { names with bindings := names.bindings ++ [b.names cs] } := by
      simp [take, add, Binding.names, Binding.written, hsource, hdefault]
    rw [List.foldl_cons, hstep]
    refine (ih (fun c hc ↦ hlisted c (List.mem_cons_of_mem _ hc)) ?_).trans ?_
    · exact hdefault
    · simp

/-- The **first** binding of a list that is written as one for the whole is taken as such. -/
theorem ClauseNames.foldl_take_of_none {names : ClauseNames}
    (hlisted : ∀ b ∈ bs, b.isListed = true) (hdefault : names.defaultLocal = none) :
    bs.foldl (take cs) names
      = ⟨(wholeOf cs bs).map (·.localName cs),
        names.bindings ++ (leftOf cs bs).map (·.names cs)⟩ := by
  induction bs generalizing names with
  | nil => simp [wholeOf, leftOf, ← hdefault]
  | cons b bs ih =>
    have hrest := fun c hc ↦ hlisted c (List.mem_cons_of_mem b hc)
    obtain ⟨source, hsource⟩ := Option.isSome_iff_exists.1 (hlisted b List.mem_cons_self)
    rw [List.foldl_cons, wholeOf, leftOf]
    cases hwhole : b.namesWhole cs with
    | true =>
      have hstep : names.take cs b = { names with defaultLocal := some (b.localName cs) } := by
        have hspelled : ownText cs source ∈ defaultSpellings := by
          simpa [Binding.namesWhole, Binding.written, hsource] using hwhole
        simp [take, add, Binding.written, hsource, hdefault, hspelled]
      rw [hstep, foldl_take_of_some hrest rfl, List.find?_cons_of_pos hwhole,
        List.eraseP_cons_of_pos hwhole]
      rfl
    | false =>
      have hstep : names.take cs b = { names with bindings := names.bindings ++ [b.names cs] } := by
        have hspelled : ownText cs source ∉ defaultSpellings := by
          simpa [Binding.namesWhole, Binding.written, hsource] using hwhole
        simp [take, add, Binding.names, Binding.written, hsource, hspelled]
      rw [hstep, List.find?_cons_of_neg (by simp [hwhole]),
        List.eraseP_cons_of_neg (by simp [hwhole])]
      refine (ih hrest ?_).trans ?_
      · exact hdefault
      · simp [wholeOf, leftOf]

/-- The bindings of a clause are **divided** as they come: at most one that stands before the list,
and the list. -/
theorem ClauseNames.foldl_take_eq {us ls : List Binding} (hlength : us.length ≤ 1)
    (hunlisted : ∀ b ∈ us, b.source = none) (hlisted : ∀ b ∈ ls, b.isListed = true) :
    (us ++ ls).foldl (take cs) {}
      = ⟨(wholeOf cs (us ++ ls)).map (·.localName cs),
        (leftOf cs (us ++ ls)).map (·.names cs)⟩ := by
  rcases us with _ | ⟨u, us⟩
  · exact foldl_take_of_none hlisted rfl
  · obtain rfl : us = [] := List.eq_nil_of_length_eq_zero (by simpa using hlength)
    have hwritten : u.written cs = none := by
      simp [Binding.written, hunlisted u List.mem_cons_self]
    have hwhole : u.namesWhole cs = true := by simp [Binding.namesWhole, hwritten]
    have hstep : take cs {} u = { defaultLocal := some (u.localName cs) } := by
      simp [take, hwritten]
    rw [List.singleton_append, List.foldl_cons, hstep, foldl_take_of_some hlisted rfl, wholeOf,
      leftOf, List.find?_cons_of_pos hwhole, List.eraseP_cons_of_pos hwhole]
    simp

/-! ### Reading a clause -/

/-- Whether a clause holds **nothing but** a name and a list: no name for all names of the module,
and no comment between its parts. -/
def isDivisible (clause : Node) : Bool :=
  (clause.children.filter (·.named)).all fun part ↦
    part.kind == "identifier" || part.kind == "named_imports"

theorem addItem_eq (hover : tree.Over d cs) (hitem : item ∈ tree.root.preorder)
    (names : ClauseNames) :
    names.addItem tree item
      = .ok ((([item].filter (·.kind == "import_specifier")).map .ofItem).foldl
          (ClauseNames.take cs) names) := by
  have hname := Transform.nodeText_eq_ownText hover (Node.mem_preorder_trans hitem
    (mem_preorder_getD fun m (hm : item.child? .name = some m) ↦ List.mem_of_find?_eq_some hm))
  unfold ClauseNames.addItem
  cases hkind : item.kind == "import_specifier" with
  | false => simp [bne, hkind, pure, Except.pure]
  | true =>
    rw [hname]
    simp only [bne, hkind, Bool.not_true, Bool.false_eq_true]
    cases halias : item.child? .alias with
    | none =>
      simp only [List.filter_cons, hkind, if_true, List.filter_nil, List.map_singleton,
        List.foldl_cons, ClauseNames.take, Binding.written, Binding.ofItem,
        halias, Option.none_or]
      rfl
    | some m =>
      have hm := Transform.nodeText_eq_ownText hover (Node.mem_preorder_of_child hitem
        (List.mem_of_find?_eq_some halias))
      simp only [List.filter_cons, hkind, if_true, List.filter_nil, List.map_singleton,
        List.foldl_cons, ClauseNames.take, Binding.written, Binding.ofItem,
        halias, hm]
      rfl

theorem foldlM_addItem_eq (hover : tree.Over d cs) {items : List Node}
    (hitems : ∀ item ∈ items, item ∈ tree.root.preorder) (names : ClauseNames) :
    items.foldlM (ClauseNames.addItem tree) names
      = .ok (((items.filter (·.kind == "import_specifier")).map .ofItem).foldl
          (ClauseNames.take cs) names) := by
  induction items generalizing names with
  | nil => rfl
  | cons item items ih =>
    have hfilter : (item :: items).filter (·.kind == "import_specifier")
        = [item].filter (·.kind == "import_specifier")
          ++ items.filter (·.kind == "import_specifier") := by
      rw [← List.filter_append, List.singleton_append]
    rw [List.foldlM_cons, addItem_eq hover (hitems item List.mem_cons_self), hfilter,
      List.map_append, List.foldl_append]
    exact ih (fun m hm ↦ hitems m (List.mem_cons_of_mem _ hm)) _

/-- The items of a list are its **parts**: comments in it are no items. -/
theorem filter_named_eq_parts (n : Node) {kind : String} (hkind : kind ≠ Node.commentKind) :
    (n.children.filter (·.named)).filter (·.kind == kind) = n.parts.filter (·.kind == kind) := by
  rw [Node.parts, Node.namedChildren, List.filter_filter, List.filter_filter, List.filter_filter]
  refine List.filter_congr fun m _ ↦ ?_
  rw [Bool.eq_iff_iff]
  simp only [Bool.and_eq_true, beq_iff_eq, Node.isComment, Bool.not_eq_true', beq_eq_false_iff_ne]
  exact ⟨fun h ↦ ⟨⟨h.1, h.1 ▸ hkind⟩, h.2⟩, fun h ↦ ⟨h.1.1, h.2⟩⟩

theorem addPart_eq (hover : tree.Over d cs) (hpart : part ∈ tree.root.preorder)
    (names : ClauseNames) :
    names.addPart tree part
      = .ok (if part.kind == "identifier" || part.kind == "named_imports" then
          some ((bindingsOf part).foldl (ClauseNames.take cs) names) else none) := by
  unfold ClauseNames.addPart bindingsOf
  cases hidentifier : part.kind == "identifier" with
  | true =>
    rw [Transform.nodeText_eq_ownText hover hpart]
    rfl
  | false =>
    cases hnamed : part.kind == "named_imports" with
    | false => rfl
    | true =>
      have hspace : (part.kind == "namespace_import") = false := by
        rw [beq_iff_eq.1 hnamed]
        rfl
      have hmem (item) (hitem : item ∈ part.children.filter (·.named)) :
          item ∈ tree.root.preorder := Node.mem_preorder_of_child hpart
        (List.mem_of_mem_filter hitem)
      have hitems := foldlM_addItem_eq hover hmem names
      rw [filter_named_eq_parts part (by decide)] at hitems
      simp only [Bool.false_eq_true, hitems, hspace]
      rfl

/-- The names of some parts are those of their **bindings**. -/
theorem ofParts_eq (hover : tree.Over d cs) {parts : List Node}
    (hparts : ∀ part ∈ parts, part ∈ tree.root.preorder) (names : ClauseNames) :
    ClauseNames.ofParts tree names parts
      = .ok (if parts.all fun part ↦ part.kind == "identifier" || part.kind == "named_imports" then
          some ((parts.flatMap bindingsOf).foldl (ClauseNames.take cs) names) else none) := by
  induction parts generalizing names with
  | nil => rfl
  | cons part parts ih =>
    have hrest := fun names ↦ ih (fun m hm ↦ hparts m (List.mem_cons_of_mem _ hm)) names
    rw [ClauseNames.ofParts, addPart_eq hover (hparts part List.mem_cons_self), List.all_cons,
      List.flatMap_cons, List.foldl_append]
    cases part.kind == "identifier" || part.kind == "named_imports" with
    | false => rfl
    | true => exact hrest _

/-- The parts of a clause come in **few ways**. -/
theorem kinds_parts_of_clause (h : clause.Shaped cs) (hkind : clause.kind = "import_clause") :
    clause.parts.map (·.kind) ∈ [["namespace_import"], ["named_imports"], ["identifier"],
      ["identifier", "namespace_import"], ["identifier", "named_imports"]] := by
  have hpatterns : ∀ looks ∈ Node.patternsOf "import_clause",
      (looks.filter (·.named)).map (·.kind) ∈ [["namespace_import"], ["named_imports"],
        ["identifier"], ["identifier", "namespace_import"],
        ["identifier", "named_imports"]] := by decide
  have hlooks := hpatterns _ (hkind ▸ h.follows (by rw [hkind]; decide))
  rwa [← Node.parts_eq, List.map_map] at hlooks

/-- Without anything else, the parts of a clause are **all** its children that stand for
constructs. -/
theorem filter_named_of_isDivisible (h : isDivisible clause = true) :
    clause.children.filter (·.named) = clause.parts := by
  refine (List.filter_eq_self.2 fun m hm ↦ ?_).symm
  have hkind := List.all_eq_true.1 h m hm
  simp only [Bool.or_eq_true, beq_iff_eq] at hkind
  rcases hkind with hkind | hkind <;> (rw [Node.isComment, hkind]; rfl)

/-- A divisible clause binds **at most one name before** its list. -/
theorem exists_bindings_eq (h : clause.Shaped cs) (hkind : clause.kind = "import_clause")
    (hdivisible : isDivisible clause = true) :
    ∃ us ls, bindings clause = us ++ ls ∧ us.length ≤ 1 ∧ (∀ b ∈ us, b.source = none) ∧
      ∀ b ∈ ls, b.isListed = true := by
  have hkinds := kinds_parts_of_clause h hkind
  have hplain (part) (hpart : part ∈ clause.parts) :
      part.kind = "identifier" ∨ part.kind = "named_imports" := by
    rw [← filter_named_of_isDivisible hdivisible] at hpart
    simpa using List.all_eq_true.1 hdivisible part hpart
  have hidentifier {part : Node} (hkind : part.kind = "identifier") :
      bindingsOf part = [⟨part, part, none, false⟩] := by simp [bindingsOf, hkind]
  have hlist {part : Node} (hkind : part.kind = "named_imports") (b) (hb : b ∈ bindingsOf part) :
      b.isListed = true := by rw [isListed_of_mem_bindingsOf hb, hkind]; rfl
  unfold bindings
  rcases hparts : clause.parts with _ | ⟨p, _ | ⟨q, _ | ⟨r, rest⟩⟩⟩
  · simp [hparts] at hkinds
  · rcases hplain p (by simp [hparts]) with hp | hp
    · exact ⟨bindingsOf p, [], by simp, by simp [hidentifier hp], by simp [hidentifier hp], by simp⟩
    · exact ⟨[], bindingsOf p, by simp, by simp, by simp, hlist hp⟩
  · have hp : p.kind = "identifier" := by
      simp only [hparts, List.map_cons, List.map_nil, List.mem_cons, List.cons.injEq,
        List.not_mem_nil, or_false, reduceCtorEq, and_false, false_or] at hkinds
      rcases hkinds with h | h <;> exact h.1
    have hq : q.kind = "named_imports" := by
      refine (hplain q (by simp [hparts])).resolve_left fun hq ↦ ?_
      simp [hparts, hq] at hkinds
    exact ⟨bindingsOf p, bindingsOf q, by simp, by simp [hidentifier hp], by simp [hidentifier hp],
      hlist hq⟩
  · simp [hparts] at hkinds

/-- What an import with a clause **takes** from a package. -/
def takenBy (cs : List Char) (n clause : Node) (index : Nat) (specifier : Text) : NamedImport where
  statement := n
  index := index
  clause := clause
  specifier := specifier
  defaultLocal := (wholeOf cs (bindings clause)).map (·.localName cs)
  bindings := (leftOf cs (bindings clause)).map (·.names cs)

/-- Whether a clause takes names that are **left** when it is divided. -/
def takesLeft (cs : List Char) (clause : Node) : Bool :=
  isDivisible clause && !(leftOf cs (bindings clause)).isEmpty

/-- What a statement takes from a package is how the bindings of its clause are **divided**. Nothing
is taken if the clause is not divisible, or if nothing is left. -/
theorem namedImport_eq (hformed : tree.Formed d cs) (hn : n ∈ tree.root.preorder)
    (hclause : n.part? "import_clause" = some clause) {specifier : Text}
    (hinternal : isInternal specifier = false) (hbuiltin : isBuiltin specifier = false)
    (index : Nat) :
    namedImport tree n index specifier
      = .ok (if takesLeft cs clause then some (takenBy cs n clause index specifier) else none) := by
  have hfind : n.children.find? (fun c ↦ c.named && c.kind == "import_clause") = some clause := by
    rw [← hclause, Node.part?, Node.namedChildren, List.find?_filter]
    exact congrArg (n.children.find? ·) (funext fun c ↦ by rw [Bool.eq_iff_iff]; simp)
  have hmem := Transform.mem_preorder_of_part? hclause
  have hkind : clause.kind = "import_clause" := by simpa using List.find?_some hclause
  have hchildren (part) (hpart : part ∈ clause.children.filter (·.named)) :
      part ∈ tree.root.preorder := Node.mem_preorder_trans hn (Node.mem_preorder_of_child hmem
    (List.mem_of_mem_filter hpart))
  have hparts := ofParts_eq hformed.toOver hchildren {}
  rw [namedImport, hinternal, hbuiltin, hfind, takesLeft]
  simp only [Bool.or_self, Bool.false_eq_true, hparts]
  cases hdivisible : isDivisible clause with
  | false =>
    rw [isDivisible] at hdivisible
    simp only [hdivisible]
    rfl
  | true =>
    obtain ⟨us, ls, hbindings, hlength, hunlisted, hlisted⟩ := exists_bindings_eq
      (hformed.shaped clause (Node.mem_preorder_trans hn hmem)) hkind hdivisible
    have hnames : (clause.parts.flatMap bindingsOf).foldl (ClauseNames.take cs) {}
        = ⟨(wholeOf cs (bindings clause)).map (·.localName cs),
          (leftOf cs (bindings clause)).map (·.names cs)⟩ := by
      rw [hbindings, ← ClauseNames.foldl_take_eq hlength hunlisted hlisted, ← hbindings]
      rfl
    have hall := hdivisible
    rw [isDivisible] at hall
    rw [hall, filter_named_of_isDivisible hdivisible, hnames, takenBy]
    cases leftOf cs (bindings clause) <;> rfl

/-! ### What is bound -/

/-- What the bindings of a clause **bind**: names, and what they stand for. -/
def boundBy (cs : List Char) (bs : List Binding) : List (Text × Taken) :=
  bs.map fun b ↦ (b.localName cs, b.taken cs)

/-- What is bound by an import of the **whole** under a name, with a declaration after it that takes
names out of the whole. -/
def shimBindings (whole : Text) (names : List (Text × Text)) : List (Text × Taken) :=
  (whole, .whole) :: names.map fun x ↦ (x.2, .property (nameKey x.1))

/-- The binding that is **added** if no binding gives the name for the whole. -/
def addedBinding (cs : List Char) (bs : List Binding) (whole : Text) : List (Text × Taken) :=
  if (wholeOf cs bs).isSome then [] else [(whole, .whole)]

/-- The bindings are the one for the whole and those that are left, **in some order**. -/
theorem perm_wholeOf_append_leftOf (cs : List Char) (bs : List Binding) :
    bs.Perm ((wholeOf cs bs).toList ++ leftOf cs bs) := by
  unfold wholeOf leftOf
  induction bs with
  | nil => exact .nil
  | cons b bs ih =>
    cases hwhole : b.namesWhole cs with
    | true =>
      rw [List.find?_cons_of_pos hwhole, List.eraseP_cons_of_pos hwhole]
      exact .refl _
    | false =>
      rw [List.find?_cons_of_neg (by simp [hwhole]), List.eraseP_cons_of_neg (by simp [hwhole])]
      exact (ih.cons b).trans List.perm_middle.symm

/-- The name for the whole is that of the binding for it, if there is one. -/
def NamesTheWhole (cs : List Char) (bs : List Binding) (whole : Text) : Prop :=
  ∀ b ∈ wholeOf cs bs, whole = b.localName cs

variable {whole : Text}

/-- What is bound by the whole comes **first**, and then the names that are left. -/
theorem shimBindings_eq (hwhole : NamesTheWhole cs bs whole) :
    shimBindings whole ((leftOf cs bs).map (·.names cs))
      = addedBinding cs bs whole ++ boundBy cs (wholeOf cs bs).toList
        ++ (leftOf cs bs).map fun b ↦
          (b.localName cs, .property (nameKey ((b.written cs).getD []))) := by
  have hhead : addedBinding cs bs whole ++ boundBy cs (wholeOf cs bs).toList
      = [(whole, .whole)] := by
    unfold addedBinding
    cases hfound : wholeOf cs bs with
    | none => rfl
    | some b =>
      have htaken := Binding.taken_of_namesWhole (List.find?_some hfound)
      simp [boundBy, htaken, hwhole b hfound]
  rw [hhead, shimBindings, List.map_map]
  rfl

/-- The **names** that are bound are those of the clause, and the one for the whole if it is new. -/
theorem perm_names_shimBindings (hwhole : NamesTheWhole cs bs whole) :
    ((shimBindings whole ((leftOf cs bs).map (·.names cs))).map (·.1)).Perm
      ((addedBinding cs bs whole ++ boundBy cs bs).map (·.1)) := by
  have hnames (as : List Binding) : (boundBy cs as).map (·.1) = as.map (·.localName cs) := by
    simp [boundBy]
  rw [shimBindings_eq hwhole, List.append_assoc, List.map_append, List.map_append, List.map_append,
    hnames, hnames, List.map_map]
  refine List.Perm.append_left _ (List.Perm.trans ?_
    ((perm_wholeOf_append_leftOf cs bs).map (·.localName cs)).symm)
  rw [List.map_append]
  exact .refl _

theorem Binding.taken_of_ne_whole (h : b.taken cs ≠ .whole) :
    b.taken cs = .property (nameKey ((b.written cs).getD [])) := by
  rw [taken] at h ⊢
  cases hwritten : b.written cs with
  | none => exact absurd (by rw [hwritten]; rfl) h
  | some written =>
    rw [hwritten, Option.elim_some, Taken.ofName] at h
    rw [Option.elim_some, Taken.ofName, Option.getD_some, if_neg fun hkey ↦ h (if_pos hkey)]

/-- The **values** are those of the clause exactly when no binding for the whole is left. -/
theorem shimBindings_perm_iff (hwhole : NamesTheWhole cs bs whole) :
    (shimBindings whole ((leftOf cs bs).map (·.names cs))).Perm
        (addedBinding cs bs whole ++ boundBy cs bs) ↔
      ∀ b ∈ leftOf cs bs, b.taken cs ≠ .whole := by
  have hdivided : (addedBinding cs bs whole ++ boundBy cs bs).Perm
      (addedBinding cs bs whole ++ boundBy cs (wholeOf cs bs).toList
        ++ boundBy cs (leftOf cs bs)) := by
    rw [List.append_assoc]
    refine List.Perm.append_left _ (((perm_wholeOf_append_leftOf cs bs).map _).trans ?_)
    rw [List.map_append]
    exact .refl _
  rw [shimBindings_eq hwhole]
  constructor
  · intro hperm b hb htaken
    have hleft := (List.perm_append_left_iff _).1 (hperm.trans hdivided)
    have hmem : (b.localName cs, Taken.whole) ∈ boundBy cs (leftOf cs bs) :=
      List.mem_map.2 ⟨b, hb, by rw [htaken]⟩
    obtain ⟨c, -, hc⟩ := List.mem_map.1 (hleft.mem_iff.2 hmem)
    simp at hc
  · intro hleft
    refine List.Perm.trans (List.Perm.append_left _ (.of_eq ?_)) hdivided.symm
    refine List.map_congr_left fun b hb ↦ ?_
    rw [Binding.taken_of_ne_whole (hleft b hb)]

/-- Each name is bound **once** if it is so in the clause and the name for the whole is none of
these, if it is new. -/
theorem nodup_names_shimBindings_iff (hwhole : NamesTheWhole cs bs whole) :
    ((shimBindings whole ((leftOf cs bs).map (·.names cs))).map (·.1)).Nodup ↔
      (bs.map (·.localName cs)).Nodup ∧
        (wholeOf cs bs = none → whole ∉ bs.map (·.localName cs)) := by
  have hnames : (boundBy cs bs).map (·.1) = bs.map (·.localName cs) := by simp [boundBy]
  rw [(perm_names_shimBindings hwhole).nodup_iff, List.map_append, hnames, addedBinding]
  cases wholeOf cs bs with
  | none => simp [and_comm]
  | some b => simp

end ScriptTree
