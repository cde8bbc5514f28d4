import ScriptTree.Proofs.Plain
import ScriptTree.Proofs.Relink

/-!
# Compiled elements

The text that an element is compiled to can be told **from the element alone**: it is a call with
the tag, the attributes and the children as arguments, and what stands inside braces is the plain
text of the node there. The plain text of a node in turn is made of the plain texts of its children
and of what is written between them. So the text of an element holds the texts of all elements below
it, and everything typed below it is gone, with one exception: what an enum or an import holds is
not looked at.

The compiler knows nothing of this recursion. It compiles the elements from the last one on, each
with the edits that there are by then.

## Main results

* `Transform.compileElement_eq_elementText`: an element is compiled to its call.
* `Transform.rendered_eq_plainText`: each node that is reached is written as its plain text.
* `Transform.elements_composed`: what all elements of a script are compiled to.
-/

namespace ScriptTree.Transform

open List Node
open Utf8 (IsBoundary size)
open Node (preorderAll)

/-! ### The call for an element -/

section Call

variable (cs : List Char) (names : MarkupNames) (below : Node → Text)

/-- The text of a script **from one byte to another**. -/
def scriptText (a b : Nat) : Text := Text.ofChars (between cs a b)

/-- The text of a node as it stands in the script. -/
def ownText (n : Node) : Text := scriptText cs n.start n.stop

/-- Whether a tag is written in **quotes**: it has a namespace, or is a name with a small first
letter or a dash. -/
def isQuotedTag (kind : String) (name : Text) : Bool :=
  kind == "jsx_namespace_name" ||
    kind == "identifier" &&
      (name.head?.any (·.satisfies isSmallLetter) || name.contains (.scalar '-'))

/-- The **tag**: without a name it is that of fragments. -/
def tagText : Option Node → Text
  | none => names.fragment
  | some name =>
    if isQuotedTag name.kind (ownText cs name) then stringLiteral (ownText cs name)
    else ownText cs name

/-- The key of an attribute. -/
def keyText (key : Text) : Text := if isPlainKey key then key else stringLiteral key

/-- The value of an attribute, of which there may be none. -/
def valueText : Option Node → Text
  | none => "true"
  | some value =>
    if value.kind == "string" then
      JsonString.quote false (Entity.decode (((ownText cs value).drop 1).dropLast))
    else if value.kind == "jsx_expression" then (value.parts.head?.map below).getD "undefined"
    else below value

/-- An **attribute** as a property; braces with nothing in them are none. -/
def propText (entry : Node) : Option Text :=
  if entry.kind == "jsx_expression" then entry.parts.head?.map below
  else entry.parts.head?.map fun key ↦
    keyText (ownText cs key) ++ (": " : Text) ++ valueText cs below entry.parts.tail.head?

/-- The attributes as an object, in their order. -/
def propsText (attributes : List Node) : Text :=
  if attributes.isEmpty then "null"
  else ("\x7b" : Text) ++ Text.join ", " (attributes.filterMap (propText cs below))
    ++ ("\x7d" : Text)

/-- What stands between two tags: **runs** of text, and the nodes that part them. -/
inductive Piece where
  | run (start stop : Nat)
  | node (n : Node)

/-- The runs and nodes from a place on to another, in their order. -/
def piecesTo (stop : Nat) : Nat → List Node → List Piece
  | cursor, [] => [.run cursor stop]
  | cursor, n :: ns => .run cursor n.start :: .node n :: piecesTo stop n.stop ns

/-- A piece as an **argument**: a run that is not trimmed to nothing, the first node in braces that
is no comment, or an element. -/
def Piece.argument? : Piece → Option Text
  | .run a b =>
    if (cleanText (scriptText cs a b)).isEmpty then none
    else some (JsonString.quote false (Entity.decode (cleanText (scriptText cs a b))))
  | .node n => if n.kind == "jsx_expression" then n.parts.head?.map below else some (below n)

/-- The tag that opens an element, which may be the whole element. -/
def openingOf (n : Node) : Node := (n.child? .openTag).getD n

/-- The children of an element between its tags, apart from text. -/
def innerNodes (n closing : Node) : List Node :=
  n.children.filter (isMarkupChild (openingOf n) closing)

/-- The **children** as arguments, in their order. -/
def childTexts (n : Node) : List Text :=
  match n.child? .closeTag with
  | none => []
  | some closing =>
    (piecesTo closing.start (openingOf n).stop (innerNodes n closing)).filterMap
      (Piece.argument? cs below)

/-- The **call** of the factory. -/
def callText (n : Node) : Text :=
  names.factory ++ ("(" : Text)
    ++ Text.join ", " (tagText cs names ((openingOf n).child? .name)
      :: propsText cs below ((openingOf n).childrenWith .attribute) :: childTexts cs below n)
    ++ (")" : Text)

/-- A text with the line feeds that it lacks against another. -/
def padded (source text : Text) : Text :=
  text ++ List.replicate (source.occurrences (.scalar '\n') - text.occurrences (.scalar '\n'))
    (.scalar '\n')

/-- The **text of an element**, given the texts of nodes below it. -/
def elementText (n : Node) : Text := padded (ownText cs n) (callText cs names below n)

end Call

/-! ### The plain text of a node -/

section PlainText

variable (tree : SourceTree) (cs : List Char) (names : MarkupNames) (typed : EditSet)

/-- What is written for a range **without nodes**: its text, and the assignments put in there. -/
def gapText (a b : Nat) : Text := spliced cs [] (assignedAt tree) a b

/-- Texts of nodes, with what stands between them. -/
def withGaps (below : Node → Text) (stop : Nat) : Nat → List Node → Text
  | cursor, [] => gapText tree cs cursor stop
  | cursor, n :: ns => gapText tree cs cursor n.start ++ below n ++ withGaps below stop n.stop ns

/-- The text of a node, **composed** of texts of nodes below it: an element is its call, a typed
part is what stands for it, an import stays for later, and any other node holds its children. -/
def composed (below : Node → Text) (n : Node) : Text :=
  if elementKinds.contains n.kind then assignedAt tree n.start ++ elementText cs names below n
  else match typed.replacement? n with
    | some text => assignedAt tree n.start ++ text
    | none =>
      if isPassedOver n then gapText tree cs n.start n.stop
      else withGaps tree cs below n.stop n.start n.children

/-- The **plain text** of a node, by recursion on the tree. -/
def plainText (n : Node) : Text :=
  composed tree cs names typed
    (fun m ↦ if m.preorder.length < n.preorder.length then plainText m else []) n
termination_by n.preorder.length

end PlainText

/-! ### Only nodes below matter -/

section Congr

variable {tree : SourceTree} {cs : List Char} {names : MarkupNames} {typed : EditSet}
  {f g : Node → Text} {n m : Node}

theorem mem_children_of_parts (hm : m ∈ n.parts) : m ∈ n.children :=
  mem_of_mem_filter (mem_of_mem_filter hm)

/-- Two ways to write nodes that **agree below** a node. -/
def AgreeBelow (f g : Node → Text) (n : Node) : Prop := ∀ m ∈ preorderAll n.children, f m = g m

theorem AgreeBelow.of_mem (h : AgreeBelow f g n) (hm : m ∈ preorderAll n.children) :
    AgreeBelow f g m := fun k hk ↦
  h k (mem_preorderAll_trans hm (mem_preorder_of_below hk))

theorem AgreeBelow.of_mem_children (h : AgreeBelow f g n) (hm : m ∈ n.children) : f m = g m :=
  h m (mem_preorderAll_of_mem hm)

theorem AgreeBelow.map_head?_parts (h : AgreeBelow f g n) :
    n.parts.head?.map f = n.parts.head?.map g :=
  Option.map_congr fun _ hk ↦
    h.of_mem_children (mem_children_of_parts (mem_of_mem_head? hk))

theorem AgreeBelow.propText_eq (h : AgreeBelow f g n) : propText cs f n = propText cs g n := by
  have hvalue : valueText cs f n.parts.tail.head? = valueText cs g n.parts.tail.head? := by
    cases hhead : n.parts.tail.head? with
    | none => rfl
    | some value =>
      have hmem : value ∈ n.children :=
        mem_children_of_parts (mem_of_mem_tail (mem_of_mem_head? hhead))
      have hbelow := h.of_mem (mem_preorderAll_of_mem hmem)
      simp only [valueText, h.of_mem_children hmem, hbelow.map_head?_parts]
  simp only [propText, h.map_head?_parts, hvalue]

theorem AgreeBelow.argument?_eq {ns : List Node} (h : AgreeBelow f g n) (hns : ns ⊆ n.children)
    (stop cursor : Nat) :
    (piecesTo stop cursor ns).filterMap (Piece.argument? cs f)
      = (piecesTo stop cursor ns).filterMap (Piece.argument? cs g) := by
  induction ns generalizing cursor with
  | nil => rfl
  | cons m ns ih =>
    have hm : m ∈ n.children := hns mem_cons_self
    have hnode : Piece.argument? cs f (.node m) = Piece.argument? cs g (.node m) := by
      have hbelow := h.of_mem (mem_preorderAll_of_mem hm)
      simp only [Piece.argument?, h.of_mem_children hm, hbelow.map_head?_parts]
    have hrun : Piece.argument? cs f (.run cursor m.start)
        = Piece.argument? cs g (.run cursor m.start) := rfl
    simp only [piecesTo, filterMap_cons, hrun, hnode,
      ih (fun k hk ↦ hns (mem_cons_of_mem _ hk))]

/-- What the tag that opens an element holds lies **below** the element. -/
theorem mem_preorderAll_of_openingOf (hm : m ∈ (openingOf n).children) :
    m ∈ preorderAll n.children := by
  unfold openingOf at hm
  cases hopen : n.child? .openTag with
  | none =>
    rw [hopen] at hm
    exact mem_preorderAll_of_mem hm
  | some opening =>
    rw [hopen] at hm
    exact mem_preorderAll.2
      ⟨opening, mem_of_find?_eq_some hopen, mem_preorder_of_mem_children hm⟩

theorem AgreeBelow.elementText_eq (h : AgreeBelow f g n) :
    elementText cs names f n = elementText cs names g n := by
  have hprops : ((openingOf n).childrenWith .attribute).filterMap (propText cs f)
      = ((openingOf n).childrenWith .attribute).filterMap (propText cs g) :=
    filterMap_congr fun k hk ↦
      (h.of_mem (mem_preorderAll_of_openingOf (mem_of_mem_filter hk))).propText_eq
  have hchildren : childTexts cs f n = childTexts cs g n := by
    unfold childTexts
    split
    · rfl
    · exact h.argument?_eq (fun k hk ↦ mem_of_mem_filter hk) _ _
  simp only [elementText, callText, propsText, hprops, hchildren]

theorem withGaps_congr {ns : List Node} (h : ∀ m ∈ ns, f m = g m) (stop cursor : Nat) :
    withGaps tree cs f stop cursor ns = withGaps tree cs g stop cursor ns := by
  induction ns generalizing cursor with
  | nil => rfl
  | cons m ns ih =>
    rw [withGaps, withGaps, h m mem_cons_self,
      ih fun k hk ↦ h k (mem_cons_of_mem _ hk)]

theorem AgreeBelow.composed_eq (h : AgreeBelow f g n) :
    composed tree cs names typed f n = composed tree cs names typed g n := by
  simp only [composed, h.elementText_eq, withGaps_congr fun m hm ↦ h.of_mem_children hm]

mutual

theorem length_preorder_le_of_mem : ∀ {n : Node}, m ∈ n.preorder →
    m.preorder.length ≤ n.preorder.length
  | ⟨kind, named, missing, role, start, stop, children⟩, hm => by
    rcases mem_cons.1 hm with rfl | hm
    · exact Nat.le_refl _
    · exact Nat.le_trans (length_preorder_le_of_mem_preorderAll hm) (Nat.le_succ _)

theorem length_preorder_le_of_mem_preorderAll : ∀ {ns : List Node}, m ∈ preorderAll ns →
    m.preorder.length ≤ (preorderAll ns).length
  | [], hm => by simp [preorderAll] at hm
  | n :: ns, hm => by
    rw [preorderAll, length_append]
    rcases mem_append.1 hm with hm | hm
    · exact Nat.le_trans (length_preorder_le_of_mem hm) (Nat.le_add_right _ _)
    · exact Nat.le_trans (length_preorder_le_of_mem_preorderAll hm) (Nat.le_add_left _ _)

end

/-- There are **fewer nodes** at and below a node that lies below another. -/
theorem length_preorder_lt (hm : m ∈ preorderAll n.children) :
    m.preorder.length < n.preorder.length := by
  rw [n.preorder_eq]
  exact Nat.lt_succ_of_le (length_preorder_le_of_mem_preorderAll hm)

/-- The plain text of a node is **composed** of plain texts of nodes below it. -/
theorem plainText_eq (n : Node) : plainText tree cs names typed n
    = composed tree cs names typed (plainText tree cs names typed) n := by
  rw [plainText]
  -- The recursion is guarded by the number of nodes, and the guard holds for all that is read.
  exact AgreeBelow.composed_eq fun m hm ↦ if_pos (length_preorder_lt hm)

end Congr

/-! ### Elements are compiled to their calls -/

section Compile

variable {tree : SourceTree} {cs : List Char} {names : MarkupNames} {d : Dialect}
  {edits : EditSet} {below : Node → Text} {n m : Node}

/-- The kinds of nodes through which an element reaches what it holds. -/
def holderKinds : List String :=
  elementKinds ++ [Node.openingKind, "jsx_attribute", "jsx_expression"]

theorem isPassedOver_of_holderKinds (h : n.kind ∈ holderKinds) : isPassedOver n = false := by
  simp only [holderKinds, elementKinds, cons_append, nil_append,
    mem_cons, not_mem_nil, or_false] at h
  rcases h with h | h | h | h | h <;> (rw [isPassedOver, h]; rfl)

theorem reached_of_mem_children (hn : n ∈ reached tree) (hkind : n.kind ∈ holderKinds)
    (hm : m ∈ n.children) : m ∈ reached tree :=
  mem_reachedAll_of_mem_children hn (isPassedOver_of_holderKinds hkind) hm

theorem mem_holderKinds_of_element (h : elementKinds.contains n.kind = true) :
    n.kind ∈ holderKinds :=
  mem_append_left _ (by simpa using h)

/-- Edits with which the nodes **below** a node that are reached are written in some way. -/
def WrittenBelow (tree : SourceTree) (edits : EditSet) (below : Node → Text) (n : Node) : Prop :=
  ∀ m ∈ preorderAll n.children, m ∈ reached tree → tree.rendered edits m = .ok (below m)

theorem WrittenBelow.of_mem (h : WrittenBelow tree edits below n)
    (hm : m ∈ preorderAll n.children) : WrittenBelow tree edits below m := fun k hk ↦
  h k (mem_preorderAll_trans hm (mem_preorder_of_below hk))

theorem WrittenBelow.rendered_eq (h : WrittenBelow tree edits below n) (hn : n ∈ reached tree)
    (hkind : n.kind ∈ holderKinds) (hm : m ∈ n.children) :
    tree.rendered edits m = .ok (below m) :=
  h m (mem_preorderAll_of_mem hm) (reached_of_mem_children hn hkind hm)

theorem rangeText_eq_scriptText (hover : tree.Over d cs) {a b : Nat} (ha : IsBoundary cs a)
    (hb : IsBoundary cs b) : tree.rangeText a b = .ok (scriptText cs a b) := by
  by_cases hab : a ≤ b
  · exact rangeText_eq hover.source ha hb hab
  · rw [rangeText_of_le (by omega), scriptText, between, Utf8.window_of_le (by omega)]
    rfl

theorem nodeText_eq_ownText (hover : tree.Over d cs) (hn : n ∈ tree.root.preorder) :
    tree.nodeText n = .ok (ownText cs n) := nodeText_eq hover hn

theorem markupTag_eq (hover : tree.Over d cs) {name : Option Node}
    (hname : ∀ m ∈ name, m ∈ tree.root.preorder) :
    markupTag tree names name = .ok (tagText cs names name) := by
  cases name with
  | none => rfl
  | some m =>
    rw [markupTag, nodeText_eq_ownText hover (hname m rfl), tagText]
    show (if _ then Except.ok _ else Except.ok _) = _
    exact (apply_ite Except.ok _ _ _).symm

/-- The **value** of an attribute is written as the spec has it. -/
theorem attributeValue_eq (hover : tree.Over d cs) (h : WrittenBelow tree edits below m)
    (hm : m ∈ reached tree) (hrendered : tree.rendered edits m = .ok (below m)) :
    attributeValue tree edits m = .ok (valueText cs below (some m)) := by
  unfold attributeValue valueText
  dsimp only
  split
  · rw [nodeText_eq_ownText hover (mem_preorder_of_reached hm)]
    rfl
  · split
    · next hkind =>
      have hholder : m.kind ∈ holderKinds := by rw [beq_iff_eq.1 hkind]; decide
      cases hhead : m.parts.head? with
      | none => rfl
      | some inner =>
        exact h.rendered_eq hm hholder (mem_children_of_parts (mem_of_mem_head? hhead))
    · exact hrendered

/-- An **attribute** is compiled to its property. -/
theorem markupProp_eq (hover : tree.Over d cs) (h : WrittenBelow tree edits below m)
    (hm : m ∈ reached tree) (hkind : m.kind ∈ Node.attributeKinds) :
    markupProp tree edits m = .ok (propText cs below m) := by
  have hholder : m.kind ∈ holderKinds := by
    have hsubset : Node.attributeKinds ⊆ holderKinds := by decide
    exact hsubset hkind
  unfold markupProp propText
  split
  · cases hhead : m.parts.head? with
    | none => rfl
    | some inner =>
      simp only [h.rendered_eq hm hholder (mem_children_of_parts (mem_of_mem_head? hhead))]
      rfl
  · cases hparts : m.parts with
    | nil => rfl
    | cons key rest =>
      have hmem {k : Node} (hk : k ∈ key :: rest) : k ∈ m.children :=
        mem_children_of_parts (hparts ▸ hk)
      have hkey := nodeText_eq_ownText hover
        (mem_preorder_of_reached (reached_of_mem_children hm hholder (hmem mem_cons_self)))
      cases hhead : rest.head? with
      | none =>
        simp only [hkey, tail_cons, hhead]
        rfl
      | some value =>
        have hvalue := hmem (mem_cons_of_mem _ (mem_of_mem_head? hhead))
        have hvalue_eq := attributeValue_eq hover
          (h.of_mem (mem_preorderAll_of_mem hvalue))
          (reached_of_mem_children hm hholder hvalue) (h.rendered_eq hm hholder hvalue)
        simp only [hkey, hvalue_eq, tail_cons, hhead]
        rfl

theorem markupProps_eq {attributes : List Node}
    (h : ∀ m ∈ attributes, markupProp tree edits m = .ok (propText cs below m)) :
    markupProps tree edits attributes = .ok (propsText cs below attributes) := by
  have hfilter : (attributes.map (propText cs below)).filterMap id
      = attributes.filterMap (propText cs below) := by
    rw [filterMap_map]
    rfl
  unfold markupProps propsText
  split
  · rfl
  · rw [mapM_eq_ok h, ← hfilter]
    rfl

/-- A **run** of text is compiled as an argument, or to none. -/
theorem textArgument_eq (hover : tree.Over d cs) (below : Node → Text) {a b : Nat}
    (ha : IsBoundary cs a) (hb : IsBoundary cs b) :
    textArgument tree a b = .ok ((Piece.run a b).argument? cs below).toList := by
  rw [textArgument, rangeText_eq_scriptText hover ha hb, Piece.argument?]
  show Except.ok _ = _
  split <;> rfl

/-- A **node** between two tags is compiled as an argument, or to none. -/
theorem childArgument_eq (cs : List Char) (h : WrittenBelow tree edits below m)
    (hm : m ∈ reached tree) (hrendered : tree.rendered edits m = .ok (below m)) :
    childArgument tree edits m = .ok ((Piece.node m).argument? cs below).toList := by
  unfold childArgument Piece.argument?
  dsimp only
  split
  · next hkind =>
    have hholder : m.kind ∈ holderKinds := by rw [beq_iff_eq.1 hkind]; decide
    cases hhead : m.parts.head? with
    | none => rfl
    | some inner =>
      simp only [h.rendered_eq hm hholder (mem_children_of_parts (mem_of_mem_head? hhead))]
      rfl
  · rw [hrendered]
    rfl

theorem toList_append_filterMap {α β : Type} (f : α → Option β) (a : α) (l : List α) :
    (f a).toList ++ l.filterMap f = (a :: l).filterMap f := by
  rw [filterMap_cons]
  cases f a <;> rfl

/-- The **children** of an element are compiled piece by piece. -/
theorem argumentsFrom_eq (hover : tree.Over d cs) (h : WrittenBelow tree edits below n)
    (hn : n ∈ reached tree) (hkind : n.kind ∈ holderKinds) {ns : List Node} {stop cursor : Nat}
    (hns : ns ⊆ n.children) (hcursor : IsBoundary cs cursor) (hstop : IsBoundary cs stop) :
    argumentsFrom tree edits stop cursor ns
      = .ok ((piecesTo stop cursor ns).filterMap (Piece.argument? cs below)) := by
  induction ns generalizing cursor with
  | nil =>
    rw [argumentsFrom, textArgument_eq hover below hcursor hstop, piecesTo,
      ← toList_append_filterMap, filterMap_nil, append_nil]
  | cons m ns ih =>
    have hm : m ∈ n.children := hns mem_cons_self
    have hreached := reached_of_mem_children hn hkind hm
    obtain ⟨hmstart, hmstop, -⟩ := placed_iff.1 (placed_of_reached hover hreached)
    have hchild := childArgument_eq cs (h.of_mem (mem_preorderAll_of_mem hm)) hreached
      (h.rendered_eq hn hkind hm)
    rw [argumentsFrom, textArgument_eq hover below hcursor hmstart, hchild,
      ih (fun k hk ↦ hns (mem_cons_of_mem _ hk)) hmstop, piecesTo,
      ← toList_append_filterMap, ← toList_append_filterMap, ← append_assoc]
    rfl

/-- What an element holds in its opening tag is **reached**. -/
theorem reached_of_openingOf (hover : tree.Over d cs) (hn : n ∈ reached tree)
    (helement : elementKinds.contains n.kind = true) : openingOf n ∈ reached tree ∧
      (openingOf n).kind ∈ holderKinds ∧
      ∀ m ∈ (openingOf n).childrenWith .attribute, m.kind ∈ Node.attributeKinds := by
  have htagged : n.Tagged := (hover.fine n (mem_preorder_of_reached hn)).tagged
    (by simpa [elementKinds, Node.markupKinds] using helement)
  refine ⟨?_, ?_, htagged.attributes⟩
  · unfold openingOf
    cases hopen : n.child? .openTag with
    | none => exact hn
    | some opening =>
      exact reached_of_mem_children hn (mem_holderKinds_of_element helement)
        (mem_of_find?_eq_some hopen)
  · unfold openingOf
    cases hopen : n.child? .openTag with
    | none => exact mem_holderKinds_of_element helement
    | some opening =>
      rw [Option.getD_some, htagged.opening opening hopen]
      decide

/-- An element is **compiled to its call**, with the line feeds that it lacks. -/
theorem compileElement_eq_elementText (hover : tree.Over d cs) (hn : n ∈ reached tree)
    (helement : elementKinds.contains n.kind = true) (h : WrittenBelow tree edits below n) :
    compileElement tree edits names n = .ok (elementText cs names below n) := by
  have hkind := mem_holderKinds_of_element helement
  obtain ⟨hopening, hopeningKind, hattributes⟩ := reached_of_openingOf hover hn helement
  have htag : markupTag tree names ((openingOf n).child? .name)
      = .ok (tagText cs names ((openingOf n).child? .name)) :=
    markupTag_eq hover fun m hm ↦ mem_preorder_of_reached
      (reached_of_mem_children hopening hopeningKind (mem_of_find?_eq_some hm))
  have hprops : markupProps tree edits ((openingOf n).childrenWith .attribute)
      = .ok (propsText cs below ((openingOf n).childrenWith .attribute)) := by
    refine markupProps_eq fun m hm ↦ ?_
    have hmem : m ∈ (openingOf n).children := mem_of_mem_filter hm
    exact markupProp_eq hover (h.of_mem (mem_preorderAll_of_openingOf hmem))
      (reached_of_mem_children hopening hopeningKind hmem) (hattributes m hm)
  have hcall : factoryCall tree edits names n = .ok (callText cs names below n) := by
    have hself : (n.child? .openTag).getD n = openingOf n := rfl
    simp only [factoryCall, hself, htag, hprops, callText, childTexts]
    cases hclose : n.child? .closeTag with
    | none => rfl
    | some closing =>
      have hclosing := reached_of_mem_children hn hkind (mem_of_find?_eq_some hclose)
      have hstart := (placed_iff.1 (placed_of_reached hover hclosing)).1
      have hstop := (placed_iff.1 (placed_of_reached hover hopening)).2.1
      have hchildren : markupChildren tree edits n (openingOf n) closing = _ :=
        argumentsFrom_eq hover h hn hkind (fun k hk ↦ mem_of_mem_filter hk) hstop hstart
      simp only [hchildren]
      rfl
  rw [compileElement, hcall, nodeText_eq_ownText hover (mem_preorder_of_reached hn)]
  rfl

end Compile

/-! ### How nodes are written -/

section Written

variable {tree : SourceTree} {cs : List Char} {names : MarkupNames} {d : Dialect}
  {path : Option Path} {edits edits' : EditSet} {below : Node → Text} {n m : Node} {w : Work}
  {text : Text}

theorem rendered_eq_spliced (hover : tree.Over d cs) (hfits : edits.Fits tree cs)
    (hinserted : edits.textAt tree.statements = assignedAt tree) (hn : n ∈ tree.root.preorder) :
    tree.rendered edits n
      = .ok (spliced cs (n.patches edits) (assignedAt tree) n.start n.stop) := by
  rw [SourceTree.rendered, renderNode_of_fits hover.source hover.placed hfits hn, hinserted]

/-- A node that is **replaced**. -/
theorem rendered_of_some (hover : tree.Over d cs) (hfits : edits.Fits tree cs)
    (hinserted : edits.textAt tree.statements = assignedAt tree) (hn : n ∈ tree.root.preorder)
    (hreplaced : edits.replacement? n = some text) :
    tree.rendered edits n = .ok (assignedAt tree n.start ++ text) := by
  have hwide := hfits.widths n hn (by rw [hreplaced]; rfl)
  obtain ⟨hstart, hstop, -⟩ := placed_iff.1 (hover.placed.of_mem_preorder hn).2.1
  rw [rendered_eq_spliced hover hfits hinserted hn, patches_of_some hreplaced]
  exact congrArg Except.ok (spliced_patch (p := ⟨n.start, n.stop, text⟩) hstart hwide
    (hwide.trans_le hstop.le))

/-- A node that is not replaced is written as its **children**, with what stands between them. -/
theorem rendered_of_none (hover : tree.Over d cs) (hfits : edits.Fits tree cs)
    (hinserted : edits.textAt tree.statements = assignedAt tree) (hn : n ∈ tree.root.preorder)
    (hreplaced : edits.replacement? n = none)
    (hbelow : ∀ m ∈ n.children, tree.rendered edits m = .ok (below m)) :
    tree.rendered edits n = .ok (withGaps tree cs below n.stop n.start n.children) := by
  have hchild (m) (hm : m ∈ n.children) :
      spliced cs (m.patches edits) (assignedAt tree) m.start m.stop = below m := by
    have hm' := mem_preorder_of_child hn hm
    exact Except.ok.inj ((rendered_eq_spliced hover hfits hinserted hm').symm.trans (hbelow m hm))
  have hwide (m) (hm : m ∈ n.children) : m.Wide edits :=
    hfits.widths.of_mem_preorder (mem_preorder_of_child hn hm)
  have hall {ns : List Node} (hns : ns ⊆ n.children) {a b : Nat}
      (hplaced : Node.PlacedIn cs a b ns) :
      spliced cs (Node.patchesAll edits ns) (assignedAt tree) a b
        = withGaps tree cs below b a ns := by
    induction ns generalizing a with
    | nil => rfl
    | cons m ns ih =>
      rw [spliced_patchesAll_cons hplaced fun k hk ↦ hwide k (hns hk), hchild m (hns mem_cons_self), ih (fun k hk ↦ hns (mem_cons_of_mem _ hk))
        hplaced.2.2]
      rfl
  have hplaced := (placed_iff.1 (hover.placed.of_mem_preorder hn).2.1).2.2
  rw [rendered_eq_spliced hover hfits hinserted hn, patches_of_none hreplaced,
    hall (List.Subset.refl _) hplaced]

/-- A node in which nothing is replaced is written **as it stands**. -/
theorem rendered_of_unreplaced (hover : tree.Over d cs) (hfits : edits.Fits tree cs)
    (hinserted : edits.textAt tree.statements = assignedAt tree) (hn : n ∈ tree.root.preorder)
    (hreplaced : ∀ m ∈ n.preorder, edits.replacement? m = none) :
    tree.rendered edits n = .ok (gapText tree cs n.start n.stop) := by
  have hnone : n.patches edits = [] := by
    refine eq_nil_iff_forall_not_mem.2 fun p hp ↦ ?_
    obtain ⟨-, -, -, m, hm, -, -, htext⟩ := bounds_of_mem_patches
      (hover.placed.of_mem_preorder hn).2.1 (hfits.widths.of_mem_preorder hn) hp
    simp [hreplaced m hm] at htext
  rw [rendered_eq_spliced hover hfits hinserted hn, hnone]
  rfl

/-! ### What is replaced -/

/-- **Nothing below** an enum is replaced, and nothing below an import that is put off. -/
theorem Compiled.replacement?_eq_none (h : Compiled tree names edits) (hover : tree.Over d cs)
    (hn : n ∈ reached tree) (hpassed : isPassedOver n = true) (hforked : n.kind ∈ Node.forkedKinds)
    (hself : isPutOff n = true ∨ typedParts n = [n]) (hm : m ∈ preorderAll n.children) :
    edits.replacement? m = none := by
  cases hreplaced : edits.replacement? m with
  | none => rfl
  | some text =>
    obtain ⟨k, hk, hputOff, q, hq, hkey, -⟩ := h.texts _ (mem_of_lookup hreplaced)
    obtain ⟨before, after, hsplit⟩ := append_of_mem hn
    have hoff : LiesOff q n := by
      refine liesOff_of_isPassedOver hover hsplit hpassed hk (fun heq ↦ ?_) hq
      subst heq
      rcases hself with hself | hself
      · exact absurd (hputOff.symm.trans hself) Bool.false_ne_true
      · rw [hself] at hq
        exact mem_singleton.1 hq ▸ liesOff_self q
    exact absurd hkey (hoff.key_ne hover (mem_preorder_of_reached hn) hforked hm)

theorem kind_of_isPutOff (h : isPutOff n = true) : n.kind = "import_statement" := by
  simp only [isPutOff, Bool.and_eq_true, beq_iff_eq] at h
  exact h.1.1

/-- Of the nodes that are passed over, only an import that is **put off** is not replaced. -/
theorem Compiled.isPutOff_of_none (h : Compiled tree names edits) (hn : n ∈ reached tree)
    (hpassed : isPassedOver n = true) (hnone : edits.replacement? n = none) :
    isPutOff n = true := by
  by_contra hputOff
  have hputOff : isPutOff n = false := by simpa using hputOff
  have hreplaced := h.replaced n hn hputOff n (mem_typedParts_of_isPassedOver hpassed hputOff)
  simp [hnone] at hreplaced

/-- A node that is reached earlier has a key of its **own**, if it forks. -/
theorem key_ne_of_precedes {k : Node} (hover : tree.Over d cs) (hk : k ∈ reached tree)
    (hforked : k.kind ∈ Node.forkedKinds) (h : Node.Precedes isPassedOver k n) :
    n.key ≠ k.key := by
  rcases h with h | ⟨-, h⟩
  · have hwide := hover.wide k (mem_preorderAll_of_reached hk)
    intro hkey
    simp only [Node.key, NodeKey.mk.injEq] at hkey
    omega
  · exact (liesOff_self k).key_ne hover (mem_preorder_of_reached hk) hforked h

theorem mem_forkedKinds_of_element (h : elementKinds.contains n.kind = true) :
    n.kind ∈ Node.forkedKinds := by
  have hkinds : elementKinds ⊆ Node.forkedKinds := by decide
  exact hkinds (by simpa using h)

/-- An **element** is replaced by the text that it is compiled to with the final edits. -/
theorem Collected.exists_compiled (h : Collected tree names (reached tree) w)
    (hover : tree.Over d cs)
    (hcompile : compileElements tree names w.edits w.elements = .ok edits) (hn : n ∈ reached tree)
    (helement : elementKinds.contains n.kind = true) :
    ∃ text, compileElement tree edits names n = .ok text ∧ edits.replacement? n = some text := by
  have hmem : n ∈ w.elements := by
    rw [h.elements, mem_reverse]
    exact mem_filter.2 ⟨hn, helement⟩
  obtain ⟨later, earlier, hsplit⟩ := append_of_mem hmem
  have hearlier := h.precedes_of_elements hover hsplit
  rw [hsplit, compileElements, foldlM_append] at hcompile
  obtain ⟨edits₁, hlater, hrest⟩ := bind_eq_ok_iff.1 hcompile
  replace hrest : compileElements tree names edits₁ (n :: earlier) = .ok edits := hrest
  have heditsFor := h.editsFor.compileElements
    (fun k hk ↦ h.reached_of_elements (by simp [hsplit, hk])) hlater
  have hsame := compileElement_eq hover hn helement hearlier heditsFor hrest
  rw [compileElements_cons] at hrest
  obtain ⟨text, htext, hrest⟩ := bind_eq_ok_iff.1 hrest
  refine ⟨text, hsame ▸ htext, ?_⟩
  -- The elements that are compiled later come earlier in the script and leave this one alone.
  rw [replacement?_compileElements hrest fun k hk ↦ ?_, EditSet.replacement?_replace, if_pos rfl]
  obtain ⟨hk, hkind, hprecedes⟩ := hearlier k hk
  exact key_ne_of_precedes hover hk (mem_forkedKinds_of_element hkind) hprecedes

/-- What is no element is replaced **as before** the elements are compiled. -/
theorem Collected.replacement?_eq (h : Collected tree names (reached tree) w)
    (hcompile : compileElements tree names w.edits w.elements = .ok edits)
    (hkind : elementKinds.contains n.kind = false) :
    edits.replacement? n = w.edits.replacement? n := by
  refine replacement?_compileElements hcompile fun e he hkey ↦ ?_
  have helement := (h.reached_of_elements he).2
  rw [← (NodeKey.mk.inj hkey).2.2, hkind] at helement
  exact absurd helement Bool.false_ne_true

/-- Elements can always be **compiled**. -/
theorem exists_compileElements (hover : tree.Over d cs) {elements : List Node}
    (helements : ∀ e ∈ elements, e ∈ reached tree ∧ elementKinds.contains e.kind = true)
    (h : EditsFor tree (reached tree) edits) :
    ∃ edits', compileElements tree names edits elements = .ok edits' := by
  induction elements generalizing edits with
  | nil => exact ⟨edits, rfl⟩
  | cons e elements ih =>
    obtain ⟨he, helement⟩ := helements e mem_cons_self
    have hrendered : WrittenBelow tree edits
        (fun m ↦ spliced cs (m.patches edits) (assignedAt tree) m.start m.stop) e := fun m _ hm ↦
      rendered_eq_spliced hover (h.fits hover (List.Subset.refl _))
        (textAt_eq_assignedAt h.insertions h.statements) (mem_preorder_of_reached hm)
    obtain ⟨text, htext⟩ : ∃ text, compileElement tree edits names e = .ok text :=
      ⟨_, compileElement_eq_elementText hover he helement hrendered⟩
    have hone : compileElements tree names edits [e] = .ok (edits.replace e text) := by
      rw [compileElements_cons, htext]
      rfl
    have hnext := h.compileElements
      (fun k hk ↦ mem_singleton.1 hk ▸ ⟨he, helement⟩) hone
    obtain ⟨edits', hedits'⟩ := ih (fun k hk ↦ helements k (mem_cons_of_mem _ hk)) hnext
    refine ⟨edits', ?_⟩
    rw [compileElements_cons, htext]
    exact hedits'

/-- Pruning imports leaves **other nodes** as they are. -/
theorem replacement?_pruneImports {used : Option (List Text)} {imports : List Node}
    (h : imports.foldlM (pruneImport tree used) edits = .ok edits')
    (himports : ∀ k ∈ imports, k.kind = "import_statement")
    (hkind : n.kind ≠ "import_statement" ∧ n.kind ≠ "import_clause") :
    edits'.replacement? n = edits.replacement? n := by
  induction imports generalizing edits with
  | nil => rw [(pure_eq_ok_iff.1 h : edits = edits')]
  | cons k imports ih =>
    obtain ⟨edits₁, hprune, h⟩ := bind_eq_ok_iff.1 h
    rw [ih h fun q hq ↦ himports q (mem_cons_of_mem _ hq)]
    rcases pruneImport_cases hprune with ⟨rfl, -⟩ | ⟨m, text, hm, rfl⟩
    · rfl
    · rw [EditSet.replacement?_replace, if_neg]
      intro hkey
      have hsame : n.kind = m.kind := (NodeKey.mk.inj hkey).2.2
      cases hm with
      | gone => exact hkind.1 (hsame.trans (himports k mem_cons_self))
      | shortened hclause =>
        exact hkind.2 (hsame.trans (by simpa using find?_some hclause))

/-- In the plain script what is no import is replaced as when all is **compiled**. -/
theorem replacement?_plainEdits_of_kind {elide : Bool} (hcollect : collect tree path = .ok w)
    (hcompile : compileElements tree names w.edits w.elements = .ok edits)
    (hplain : plainEdits tree names elide path = .ok edits')
    (hkind : n.kind ≠ "import_statement" ∧ n.kind ≠ "import_clause") :
    edits'.replacement? n = edits.replacement? n := by
  have hcollected : Collected tree names (reached tree) w := collected_collect hcollect
  rw [plainEdits_eq] at hplain
  obtain ⟨w', hcollect', hplain⟩ := bind_eq_ok_iff.1 hplain
  obtain rfl := Except.ok.inj (hcollect.symm.trans hcollect')
  obtain ⟨edits₁, hcompile', hplain⟩ := bind_eq_ok_iff.1 hplain
  obtain rfl := Except.ok.inj (hcompile.symm.trans hcompile')
  obtain ⟨used, -, hplain⟩ := bind_eq_ok_iff.1 hplain
  refine replacement?_pruneImports hplain (fun k hk ↦ ?_) hkind
  rw [hcollected.imports] at hk
  exact kind_of_isPutOff (mem_filter.1 hk).2

/-- In the plain script elements are replaced as they are **compiled**. -/
theorem replacement?_plainEdits {elide : Bool} (hcollect : collect tree path = .ok w)
    (hcompile : compileElements tree names w.edits w.elements = .ok edits)
    (hplain : plainEdits tree names elide path = .ok edits')
    (helement : elementKinds.contains n.kind = true) :
    edits'.replacement? n = edits.replacement? n := by
  refine replacement?_plainEdits_of_kind hcollect hcompile hplain ?_
  constructor <;> (intro heq; rw [heq] at helement; exact absurd helement (by decide))

/-- What lies below an **enum** is written as it stands: the enum is rewritten as a whole, so
nothing is replaced inside it. -/
theorem rendered_of_mem_enum (hover : tree.Over d cs) (hcompiled : Compiled tree names edits)
    (hn : n ∈ reached tree) (hkind : n.kind = "enum_declaration")
    (hm : m ∈ preorderAll n.children) :
    tree.rendered edits m = .ok (gapText tree cs m.start m.stop) := by
  have hpassed : isPassedOver n = true := by rw [isPassedOver, hkind]; rfl
  have hparts : typedParts n = [n] := by rw [typedParts, erasedParts, rewrittenParts, hkind]; rfl
  refine rendered_of_unreplaced hover (hcompiled.editsFor.fits hover (List.Subset.refl _))
    (textAt_eq_assignedAt hcompiled.editsFor.insertions hcompiled.editsFor.statements)
    (mem_preorder_trans (mem_preorder_of_reached hn) (mem_preorder_of_below hm))
    fun k hk ↦ ?_
  exact hcompiled.replacement?_eq_none hover hn hpassed (by rw [hkind]; decide) (.inr hparts)
    (mem_preorderAll_trans hm hk)

/-! ### Main results -/

/-- Each node that is reached is written as its **plain text**. -/
theorem rendered_eq_plainText (hover : tree.Over d cs) (hcollect : collect tree path = .ok w)
    (hcompile : compileElements tree names w.edits w.elements = .ok edits) (hn : n ∈ reached tree) :
    tree.rendered edits n = .ok (plainText tree cs names w.edits n) := by
  have hcollected : Collected tree names (reached tree) w := collected_collect hcollect
  have hcompiled := compiled_compileElements hover hcollect hcompile
  have hfits := hcompiled.editsFor.fits hover (List.Subset.refl _)
  have hinserted := textAt_eq_assignedAt hcompiled.editsFor.insertions hcompiled.editsFor.statements
  induction hsize : n.preorder.length using Nat.strong_induction_on generalizing n with
  | _ size ih =>
  have hroot := mem_preorder_of_reached hn
  have hbelow : WrittenBelow tree edits (plainText tree cs names w.edits) n := fun m hm hreached ↦
    ih _ (hsize ▸ length_preorder_lt hm) hreached rfl
  rw [plainText_eq, composed]
  split
  · next helement =>
    obtain ⟨text, htext, hreplaced⟩ := hcollected.exists_compiled hover hcompile hn helement
    rw [compileElement_eq_elementText hover hn helement hbelow] at htext
    rw [Except.ok.inj htext]
    exact rendered_of_some hover hfits hinserted hroot hreplaced
  · next helement =>
    have hsame := hcollected.replacement?_eq hcompile (by simpa using helement)
    rw [← hsame]
    split
    · next text hreplaced => exact rendered_of_some hover hfits hinserted hroot hreplaced
    · next hnone =>
      split
      · next hpassed =>
        -- Nothing is replaced in an import before the elements are compiled.
        have hputOff := hcompiled.isPutOff_of_none hn hpassed hnone
        refine rendered_of_unreplaced hover hfits hinserted hroot fun m hm ↦ ?_
        rcases mem_preorder.1 hm with rfl | hm
        · exact hnone
        · exact hcompiled.replacement?_eq_none hover hn hpassed
            (by rw [kind_of_isPutOff hputOff]; decide) (.inl hputOff) hm
      · next hpassed =>
        refine rendered_of_none hover hfits hinserted hroot hnone fun m hm ↦ ?_
        exact hbelow m (mem_preorderAll_of_mem hm)
          (mem_reachedAll_of_mem_children hn (by simpa using hpassed) hm)

/-- **Elements are compiled by structural recursion**, except in enums. The elements of a script can
always be compiled. With all of them compiled, each node that is reached is written as its plain
text, which is composed of the plain texts of the nodes below it. So an element becomes a call with
its tag, its attributes and its children, in which each element below stands as its own call and
each typed part is gone or written anew, and this is what stands for it in the plain script. Nodes
that are not reached lie below one that is passed over. What an enum holds is then written as it
stands, elements and types included. -/
theorem elements_composed (hover : tree.Over d cs) (hcollect : collect tree path = .ok w)
    (names : MarkupNames) :
    (∀ n, plainText tree cs names w.edits n
      = composed tree cs names w.edits (plainText tree cs names w.edits) n) ∧
    ∃ edits, compileElements tree names w.edits w.elements = .ok edits ∧
      Compiled tree names edits ∧
      (∀ n ∈ reached tree,
        tree.rendered edits n = .ok (plainText tree cs names w.edits n)) ∧
      (∀ n ∈ reached tree, elementKinds.contains n.kind = true →
        edits.replacement? n
          = some (elementText cs names (plainText tree cs names w.edits) n) ∧
        ∀ elide edits', plainEdits tree names elide path = .ok edits' →
          tree.rendered edits' n = .ok (assignedAt tree n.start
            ++ elementText cs names (plainText tree cs names w.edits) n)) ∧
      (∀ m ∈ preorderAll tree.statements, m ∈ reached tree ∨
        ∃ n ∈ reached tree, isPassedOver n = true ∧ m ∈ preorderAll n.children) ∧
      ∀ n ∈ reached tree, n.kind = "enum_declaration" → ∀ m ∈ preorderAll n.children,
        tree.rendered edits m = .ok (gapText tree cs m.start m.stop) := by
  have hcollected : Collected tree names (reached tree) w := collected_collect hcollect
  obtain ⟨edits, hcompile⟩ : ∃ edits, compileElements tree names w.edits w.elements = .ok edits :=
    exists_compileElements hover (fun e he ↦ hcollected.reached_of_elements he) hcollected.editsFor
  have hcompiled := compiled_compileElements hover hcollect hcompile
  have hwritten (n) (hn : n ∈ reached tree) := rendered_eq_plainText hover hcollect hcompile hn
  refine ⟨plainText_eq, edits, hcompile, hcompiled, hwritten, fun n hn helement ↦ ?_,
    fun m hm ↦ Node.mem_reachedAll_or hm,
    fun n hn hkind m hm ↦ rendered_of_mem_enum hover hcompiled hn hkind hm⟩
  have hreplaced : edits.replacement? n
      = some (elementText cs names (plainText tree cs names w.edits) n) := by
    obtain ⟨text, htext, hreplaced⟩ := hcollected.exists_compiled hover hcompile hn helement
    rw [compileElement_eq_elementText hover hn helement fun m _ hm ↦ hwritten m hm] at htext
    rw [hreplaced, Except.ok.inj htext]
  -- Imports are pruned afterwards, which leaves elements alone.
  refine ⟨hreplaced, fun elide edits' hplain ↦ ?_⟩
  obtain ⟨used, edits₀, -, hall⟩ := exists_allEdits hover hplain
  refine rendered_of_some hover (hall.fits hover)
    (textAt_eq_assignedAt hall.insertions hall.statements) (mem_preorder_of_reached hn) ?_
  rw [replacement?_plainEdits hcollect hcompile hplain helement, hreplaced]

end Written

/-- The path of a typed script with markup. -/
def markupPath : Path := ⟨.root, ["a.tsx"]⟩

/-- A script with an attribute, a run of text, an element inside another and a line feed. -/
def nestedMarkup : List Char := "x=<a b='c'>t \x7b<D/>\x7d\n</a>".toList

/-- The plain text of `nestedMarkup`. -/
def nestedPlain : List Char :=
  ("x=React.createElement('a', \x7bb: \"c\"\x7d, \"t \", React.createElement(D, null))\n").toList

/-- At a script with one element inside another. -/
theorem elements_composed_nested :
    plain {} (Text.ofChars nestedMarkup) (some markupPath) = .ok (Text.ofChars nestedPlain) ∧
    ((reached (SourceTree.read .typedMarkup nestedMarkup)).filter
      (elementKinds.contains ·.kind)).length = 2 ∧
    ∃ (w : Work) (edits : EditSet),
      collect (SourceTree.read .typedMarkup nestedMarkup) (some markupPath) = .ok w ∧
      ∀ n ∈ reached (SourceTree.read .typedMarkup nestedMarkup),
        elementKinds.contains n.kind = true → edits.replacement? n
          = some (elementText nestedMarkup {}
            (plainText (SourceTree.read .typedMarkup nestedMarkup) nestedMarkup {} w.edits) n) := by
  have hplain : plain {} (Text.ofChars nestedMarkup) (some markupPath)
      = .ok (Text.ofChars nestedPlain) := by
    rw [plain_eq_map (by decide +kernel)]
    exact eq_ok_of_succeedsWith (by decide +kernel)
  obtain ⟨w, hcollect, -⟩ : ∃ w,
      collect (SourceTree.read .typedMarkup nestedMarkup) (some markupPath) = .ok w ∧ true = true :=
    exists_of_succeedsWith (p := fun _ ↦ true) (by decide +kernel)
  obtain ⟨-, edits, -, -, -, helements, -⟩ := elements_composed (over_read _ _) hcollect {}
  exact ⟨hplain, by decide +kernel, w, edits, hcollect,
    fun n hn helement ↦ (helements n hn helement).1⟩

/-- A script with an element in an enum, inside another element. -/
def enumMarkup : List Char :=
  "x = <a>\x7b() => \x7b enum E \x7b A = f(<b/>) \x7d \x7d\x7d</a>;\n".toList

/-- The plain text of `enumMarkup`. -/
def enumPlain : List Char :=
  ("x = React.createElement('a', null, () => \x7b var E; (function (E) \x7b "
    ++ "E[E[\"A\"] = f(<b/>)] = \"A\"; \x7d)(E || (E = \x7b\x7d)); \x7d);\n").toList

/-- An element in an enum is **not compiled**, although the enum stands inside another element. -/
theorem plain_enumMarkup :
    plain {} (Text.ofChars enumMarkup) (some markupPath) = .ok (Text.ofChars enumPlain) ∧
      ∃ m ∈ preorderAll (SourceTree.read .typedMarkup enumMarkup).statements,
        elementKinds.contains m.kind = true ∧
        ∀ n ∈ reached (SourceTree.read .typedMarkup enumMarkup), m.key ≠ n.key := by
  refine ⟨?_, ?_⟩
  · rw [plain_eq_map (by decide +kernel)]
    exact eq_ok_of_succeedsWith (by decide +kernel)
  · decide +kernel

end ScriptTree.Transform
