import ScriptTree.Proofs.Looks

/-!
# Reading is tidy

Every rule of the grammar is **tidy**: it lays its nodes side by side in the text that it reads. Most
rules are so because their parts are. Templates need an argument of their own, since a template must
stand between its marks and each of its substitutions must start with one.

## Main results

* `Grammar.IsTidy`: a grammar whose expressions, types and statements are tidy has tidy rules, given
  as instances that follow the rules one by one.
* `ticked_of_parts`, `tidy_template`: templates.
* `laid_nest`, `laid_nestNames`: nodes put around nodes that have been read.
-/

namespace ScriptTree

open List Node
open Rule
open Node (Laid laid_nil laid_leaf Known isOrdinary known_of_isOrdinary typedKinds)

namespace Grammar

variable {d : Dialect} {cs : List Char} {g : Grammar} {before : List Node} {r : Rule}
  {made ks : List String} {fills bare : Bool} {c c' : Cursor} {nodes : List Node} {kind : String}

/-! ### Annotations and names -/

instance : Tidy d cs [] typeName [] true := by
  unfold typeName
  exact .prune

instance : Tidy d cs [] subject [] true := by
  unfold subject
  exact .prune

instance : Tidy d cs [] beforeName [] false := by
  unfold beforeName
  infer_instance

instance {w : String} : Tidy d cs [] (modifier w) [w] true := by
  unfold modifier
  exact Tidy.mono inferInstance (by simp) (by simp)

instance : Tidy d cs [] accessibility [] true := by
  refine .of_still fun w ↦ ?_
  split
  · next hw => exact tidy_leafWord_of_mem hw (by decide)
  · infer_instance

section

variable [g.IsTidy cs]

instance : g.Tidies cs g.typeAnnotation := by
  unfold typeAnnotation
  exact .prune

instance : g.Tidies cs g.asserts := by
  unfold asserts typePredicate
  exact .prune

instance : g.Tidies cs g.returnAnnotation := by
  unfold returnAnnotation typePredicate
  exact .prune

instance : g.Tidies cs g.returnType := by
  unfold returnType typePredicate
  exact .prune

instance : g.Tidies cs g.typeArguments := by
  unfold typeArguments
  exact .prune

instance : g.Tidies cs g.typeParameters := by
  unfold typeParameters typeParameter
  exact .prune

instance : g.Tidies cs g.callSignature := by
  unfold callSignature
  exact .prune

instance : g.Tidies cs g.propertyName := by
  unfold propertyName computedName
  exact .prune

/-! ### Patterns and parameters -/

instance : g.Tidies cs g.arguments := by
  unfold arguments spread
  exact .prune

instance : g.Tidies cs g.parenthesized := by
  unfold parenthesized
  exact .prune

instance : Tidy d cs before (memberStep before) [] true := by
  unfold memberStep
  exact .prune

instance : g.Tidies cs g.decorator := by
  unfold decorator callStep
  exact .prune

instance [g.Tidies cs r] : g.Tidies cs (g.withDefault r) := by
  unfold withDefault
  exact .prune

instance [g.Tidies cs r] : g.Tidies cs (g.arrayPattern r) := by
  unfold arrayPattern restPattern
  exact .prune

instance [g.Tidies cs r] : g.Tidies cs (g.objectPattern r) := by
  unfold objectPattern restPattern shorthandPattern
  exact .prune

instance : g.Tidies cs g.pattern := by
  unfold pattern restPattern
  refine .of_still fun l ↦ ?_
  split <;> exact .prune

instance : g.Tidies cs g.target := by
  unfold target restPattern placeStep
  refine .of_still fun l ↦ ?_
  split <;> exact .prune

instance : Tidy d cs [] parameterModifiers [] false := by
  unfold parameterModifiers beforePattern
  exact .prune

/-- A parameter of a typed script is a node of one of two kinds. -/
instance : g.Tidies cs g.typedParameter := by
  refine ⟨fun {ks a c c' nodes} hks hc hbefore hrun ↦ ?_, fun hrun _ ↦ ?_⟩
  all_goals
    replace hrun := after_offset (after_gap hrun)
    obtain ⟨front, c₂, hfront, hrun⟩ := bind_eq_some hrun
    obtain ⟨optionMark, c₃, hmark, hrun⟩ := bind_eq_some hrun
    obtain ⟨back, c₄, hback, hrun⟩ := bind_eq_some hrun
    obtain ⟨rfl, rfl⟩ := pure_eq_some hrun
  case refine_2 => simp
  have hskip := c.gap_skipGap
  obtain ⟨hc₂, hle₂, hlaid₂⟩ := Tidy.run_ordinary g.dialect ks (by decide) (hskip.at hc) hfront
  obtain ⟨hc₃, hle₃, hlaid₃⟩ := Tidy.run_ordinary g.dialect ks (by decide) hc₂ hmark
  obtain ⟨hc₄, hle₄, hlaid₄⟩ := Tidy.run_ordinary g.dialect ks (by decide) hc₃ hback
  have hne : front ≠ [] := Tidy.ne_nil_of_run g.dialect cs rfl hfront
  refine ⟨hc₄, Nat.le_trans hskip.offset_le (by omega), ?_⟩
  exact ((hlaid₂.append hlaid₃).append hlaid₄).ordinaryNode (by split <;> decide)
    (GapTo.trans hbefore.grown (GapTo.of_gap hc hskip)) (by simp [hne]) hc₄.isBoundary

instance : g.Tidies cs g.parameters := by
  unfold parameters
  exact .prune

/-! ### Functions -/

instance : g.Tidies cs g.functionBody := by
  unfold functionBody
  infer_instance

instance {generator : Bool} : Tidy d cs [] (functionHead generator) [] true := by
  unfold functionHead
  exact .prune

instance : g.Tidies cs g.functionDeclaration := by
  unfold functionDeclaration
  exact .prune

instance : g.Tidies cs g.functionSignature := by
  unfold functionSignature
  exact .prune

instance : g.Tidies cs g.functionExpression := by
  unfold functionExpression
  exact .prune

instance : g.Tidies cs (g.arrowFunction bare) := by
  unfold arrowFunction arrowHead arrowBody
  exact .prune

instance : Tidy d cs [] methodWords [] false := by
  unfold methodWords
  exact .prune

/-! ### Types -/

/-- A name put on another, with the dot between them. -/
theorem laid_nest {a b : Nat} {front dot last : Node} {rest : List Node}
    {kind kind' : String} (hkind : isOrdinary kind = true) (hkind' : isOrdinary kind' = true)
    (h : Laid d cs ks a b (front :: dot :: last :: rest)) :
    Laid d cs ks a b
      (⟨kind, true, false, none, front.start, last.stop,
        [front, dot, { last with kind := kind' }]⟩ :: rest) := by
  obtain ⟨hfront, hrest⟩ := h.uncons
  obtain ⟨hdot, hrest⟩ := hrest.uncons
  obtain ⟨hlast, hrest⟩ := hrest.uncons
  have hinner := hfront.tight.append (hdot.append (hlast.rename hkind'))
  have hnode : Laid d cs ks a last.stop [⟨kind, true, false, none, front.start, last.stop, _⟩] :=
    hinner.ordinaryNode hkind h.grown.1 (by simp) hrest.grown.isBoundary_left
  exact hnode.append hrest

theorem laid_nestNames {a b : Nat} {front : Node} {rest : List Node}
    (h : Laid d cs ks a b (front :: rest)) : Laid d cs ks a b (nestNames front rest) := by
  fun_induction nestNames front rest with
  | case1 front dot name x xs ih => exact ih (laid_nest (by decide) (by decide) h)
  | case2 front rest => exact h

theorem laid_asTypeName {a b : Nat} {names : List Node}
    (h : Laid d cs ks a b names) : Laid d cs ks a b (asTypeName names) := by
  unfold asTypeName
  split
  · exact h
  · exact h.rename (by decide)
  · have hnest := laid_nestNames h
    split
    · next heq =>
      rw [heq] at hnest
      exact laid_nest (by decide) (by decide) hnest
    · exact hnest

theorem nestNames_ne_nil (front : Node) (rest : List Node) : nestNames front rest ≠ [] := by
  fun_induction nestNames front rest with
  | case1 front dot name x xs ih => exact ih
  | case2 front rest => simp

theorem asTypeName_ne_nil {names : List Node} (h : names ≠ []) : asTypeName names ≠ [] := by
  unfold asTypeName
  split
  · exact h
  · simp
  · split
    · simp
    · exact nestNames_ne_nil _ _

instance : Tidy d cs [] qualifiedName [] true := by
  have htidy : Tidy d cs [] (seq [identifier, many (seq [mark ".", anyName "identifier"])]) []
      true := Tidy.prune
  refine ⟨fun {ks a c c' nodes} hks hc hbefore hrun ↦ ?_, fun hrun hne ↦ ?_⟩
  · obtain ⟨names, c₁, hnames, hrun⟩ := bind_eq_some hrun
    obtain ⟨rfl, rfl⟩ := pure_eq_some hrun
    obtain ⟨hc', hle, hlaid⟩ := htidy.run hks hc hbefore hnames
    exact ⟨hc', hle, laid_asTypeName hlaid⟩
  · obtain ⟨names, c₁, hnames, hrun⟩ := bind_eq_some hrun
    obtain ⟨rfl, rfl⟩ := pure_eq_some hrun
    exact asTypeName_ne_nil (htidy.ne_nil hnames hne)

instance : g.Tidies cs g.namedType := by
  refine .of_still fun w ↦ ?_
  split
  · next hw => exact tidy_leafWord_of_mem hw (by decide)
  · exact .prune

instance : Tidy d cs [] literalType [] true := by
  unfold literalType
  exact .prune

instance : Tidy g.dialect cs before (g.queryStep before) [] true := by
  unfold queryStep typeCallArguments
  exact .prune

instance : g.Tidies cs g.typeQuery := by
  unfold typeQuery
  exact .prune

instance : g.Tidies cs g.importType := by
  unfold importType importStep typeCallArguments
  exact .prune

instance : g.Tidies cs g.indexSignature := by
  unfold indexSignature readonlySign mappedClause indexAnnotation
  exact .prune

instance : Tidy d cs [] memberModifiers [] false := by
  unfold memberModifiers
  exact .prune

instance : g.Tidies cs g.typeMember := by
  unfold typeMember methodSignature propertySignature
  exact .prune

instance : Tidy g.dialect cs [] (g.typeBody kind) [kind, "\x7b", ",", ";", "\x7d"] true := by
  unfold typeBody memberEnd
  exact Tidy.mono inferInstance (by simp [unlessFilled]) (by simp)

instance : g.Tidies cs g.tupleType := by
  unfold tupleType tupleMember
  exact .prune

instance : g.Tidies cs g.functionType := by
  unfold functionType
  exact .prune

instance : g.Tidies cs g.constructorType := by
  unfold constructorType
  exact .prune

/-! ### Templates -/

theorem immediateMark_eq_some {p : String} (h : immediateMark p c = some (nodes, c')) :
    p.toList.isPrefixOf c.rest = true ∧ take p false p.length c = some (nodes, c') := by
  replace h := after_immediate h
  split at h
  · next hmark => exact ⟨hmark, h⟩
  · cases h

instance {p : String} : Tidy d cs [] (immediateMark p) [p] true :=
  tidy_of_immediate (fun hempty _ hl ↦ mark_pos (by rintro rfl; simp at hempty) hl)
    mem_cons_self

/-- A **substitution** in a template. -/
def substituted (kind : String) (inner : Rule) : Rule := do
  let start ← offset
  let opening ← immediateMark "$\x7b"
  let body ← inner
  let closing ← mark "\x7d"
  return [⟨kind, true, false, none, start, ← offset, opening ++ body ++ closing⟩]

/-- Characters of a template, at least one. -/
def fragment : Rule := do
  let nodes ← templateChars
  if nodes.isEmpty then failure else return nodes

/-- The parts of a template. -/
theorem template_eq (kind substitution : String) (inner : Rule) :
    template kind substitution inner = node kind (seq
      [bareMark "\x60", many (alt [fragment, substituted substitution inner]),
        immediateMark "\x60"]) := rfl

theorem fragment_eq_some (h : fragment c = some (nodes, c')) :
    ∃ n, Lexeme.templateChars? c.rest = some (n + 1)
      ∧ take "string_fragment" true (n + 1) c = some (nodes, c') := by
  obtain ⟨inner, c₁, hinner, h⟩ := bind_eq_some h
  replace hinner := after_immediate hinner
  split at h
  · cases h
  · next hne =>
    obtain ⟨rfl, rfl⟩ := pure_eq_some h
    cases hn : Lexeme.templateChars? c.rest with
    | none =>
      rw [hn] at hinner
      cases hinner
    | some n =>
      rw [hn] at hinner
      cases n with
      | zero =>
        obtain ⟨rfl, rfl⟩ := pure_eq_some hinner
        simp at hne
      | succ n => exact ⟨n, rfl, hinner⟩

instance : Tidy d cs [] fragment [] true := by
  have h : Tidy d cs [] fragment ["string_fragment"] true := by
    refine tidy_of_takesLeaf fun {c c' nodes} hrun ↦ ?_
    obtain ⟨n, hn, htake⟩ := fragment_eq_some hrun
    refine ⟨_, _, _, c, .refl c, mem_cons_self, fun _ ↦ ⟨by omega, fun hnil ↦ ?_⟩, htake⟩
    rw [hnil] at hn
    cases hn
  exact .prune

/-- What stands at the place of a cursor. -/
theorem standsAt_of_isPrefixOf {c : Cursor} {p : List Char} (hc : c.At cs)
    (h : p.isPrefixOf c.rest = true) : StandsAt cs c.offset p := by
  obtain ⟨before, hcs, hoffset⟩ := hc.split
  obtain ⟨after, hafter⟩ := List.isPrefixOf_iff_prefix.1 h
  exact ⟨before, after, by rw [hcs, append_assoc, hafter], hoffset⟩

theorem substituted_eq_some (d : Dialect) (ks : List String) {inner : Rule}
    [Tidy d cs [] inner [] true] (hc : c.At cs) (h : substituted kind inner c = some (nodes, c')) :
    c'.At cs ∧ ∃ children, Laid d cs ks c.offset c'.offset children ∧ children ≠ []
      ∧ nodes = [⟨kind, true, false, none, c.offset, c'.offset, children⟩]
      ∧ StandsAt cs c.offset ['$', '\x7b'] ∧ c.offset + 2 ≤ c'.offset := by
  replace h := after_offset h
  obtain ⟨opening, c₁, hopening, h⟩ := bind_eq_some h
  obtain ⟨body, c₂, hbody, h⟩ := bind_eq_some h
  obtain ⟨closing, c₃, hclosing, h⟩ := bind_eq_some h
  obtain ⟨rfl, rfl⟩ := pure_eq_some h
  obtain ⟨hc₁, hle₁, hlaid₁⟩ := Tidy.run_ordinary d ks (by decide) hc hopening
  obtain ⟨hc₂, hle₂, hlaid₂⟩ := Tidy.run_ordinary d ks (by decide) hc₁ hbody
  obtain ⟨hc₃, hle₃, hlaid₃⟩ := Tidy.run_ordinary d ks (by decide) hc₂ hclosing
  obtain ⟨hmark, hopening⟩ := immediateMark_eq_some hopening
  obtain ⟨rfl, rfl⟩ := take_eq_some hopening
  have htwo : (c.advance "$\x7b".length).offset = c.offset + 2 :=
    Cursor.offset_advance_of_isPrefixOf hmark
  exact ⟨hc₃, _, (hlaid₁.append hlaid₂).append hlaid₃, by simp, rfl,
    standsAt_of_isPrefixOf hc hmark, by omega⟩

theorem tidy_substituted (hkind : isOrdinary kind = true) [Tidy d cs [] r [] true] :
    Tidy d cs [] (substituted kind r) [] true := by
  refine ⟨fun {ks a c c' nodes} hks hc hbefore hrun ↦ ?_, fun hrun _ ↦ ?_⟩
  · obtain ⟨hc', children, hlaid, hne, rfl, -, -⟩ := substituted_eq_some d ks hc hrun
    exact ⟨hc', hlaid.grown.le, hlaid.ordinaryNode hkind hbefore.grown hne hc'.isBoundary⟩
  · obtain ⟨start, c₁, -, hrun⟩ := bind_eq_some hrun
    obtain ⟨body, c₂, -, hrun⟩ := bind_eq_some hrun
    obtain ⟨closing, c₃, -, hrun⟩ := bind_eq_some hrun
    obtain ⟨stop, c₄, -, hrun⟩ := bind_eq_some hrun
    obtain ⟨rfl, rfl⟩ := pure_eq_some hrun
    simp

theorem kind_of_mem_fragment (h : fragment c = some (nodes, c')) :
    ∀ n ∈ nodes, n.kind = "string_fragment" := by
  obtain ⟨n, -, htake⟩ := fragment_eq_some h
  obtain ⟨rfl, rfl⟩ := take_eq_some htake
  simp

/-- A substitution in a template **starts with its mark**. -/
theorem standsAt_of_mem_parts (d : Dialect) {substitution : String} [Tidy d cs [] r [] true]
    (hc : c.At cs)
    (h : alt [fragment, substituted substitution r] c = some (nodes, c')) :
    ∀ n ∈ nodes, n.kind = Node.substitutionKind →
      StandsAt cs n.start ['$', '\x7b'] ∧ n.start + 2 ≤ n.stop := by
  rcases orElse_eq_some h with h | h
  · intro n hn hkind
    rw [kind_of_mem_fragment h n hn] at hkind
    exact absurd hkind (by decide)
  · rcases orElse_eq_some h with h | h
    · obtain ⟨-, children, -, -, rfl, hstands⟩ := substituted_eq_some d [] hc h
      simpa using fun _ ↦ hstands
    · cases h

/-- The parts of a template stand **between backticks**. -/
theorem ticked_of_parts (d : Dialect) {substitution : String} {children : List Node}
    [Tidy d cs [] (substituted substitution r) [] true] [Tidy d cs [] r [] true] (hc : c.At cs)
    (hsettled : c.skipGap = c)
    (h : seq [bareMark "\x60", many (alt [fragment, substituted substitution r]),
      immediateMark "\x60"] c = some (children, c')) :
    Node.Ticked cs ⟨kind, true, false, none, c.offset, c'.offset, children⟩ := by
  obtain ⟨front, c₁, rest₁, hfront, hrest₁, rfl⟩ := seq_cons_eq_some h
  obtain ⟨middle, c₂, rest₂, hmiddle, hrest₂, rfl⟩ := seq_cons_eq_some hrest₁
  obtain ⟨back, c₃, rest₃, hback, hrest₃, rfl⟩ := seq_cons_eq_some hrest₂
  obtain ⟨rfl, rfl⟩ := pure_eq_some hrest₃
  obtain ⟨hopens, hfront⟩ := bareMark_eq_some hfront
  rw [hsettled] at hopens hfront
  obtain ⟨rfl, rfl⟩ := take_eq_some hfront
  obtain ⟨hcloses, hback⟩ := immediateMark_eq_some hback
  obtain ⟨rfl, rfl⟩ := take_eq_some hback
  have hstart : (c.advance "\x60".length).offset = c.offset + 1 :=
    Cursor.offset_advance_of_isPrefixOf hopens
  have hstop : (c₂.advance "\x60".length).offset = c₂.offset + 1 :=
    Cursor.offset_advance_of_isPrefixOf hcloses
  obtain ⟨hc₂, hle, hlaid⟩ := Tidy.run_ordinary d [] (by decide) (hc.advance _) hmiddle
  refine ⟨standsAt_of_isPrefixOf hc hopens, ?_, ?_, fun m hm hkind ↦ ?_⟩
  · simp only [hstop]
    exact standsAt_of_isPrefixOf hc₂ hcloses
  · simp only
    omega
  · have htick : "\x60" ≠ Node.substitutionKind := by decide
    have hmiddleOf : m ∈ middle := by
      simp only [mem_append, mem_cons, not_mem_nil, or_false] at hm
      rcases hm with rfl | hm | rfl
      · exact absurd hkind htick
      · exact hm
      · exact absurd hkind htick
    obtain ⟨hstands, htwo⟩ := forall_mem_manyFrom (d := d) (standsAt_of_mem_parts d)
      (hc.advance _) hmiddle m hmiddleOf hkind
    have hbounds := hlaid.grown.of_mem hmiddleOf
    exact ⟨hstands, by simp only; omega, by simp only; omega⟩

theorem tidy_template {kind substitution : String}
    (hkind : kind ∉ typedKinds ∧ kind ∉ Node.forkedKinds ∧ kind ∉ Node.shapedKinds)
    (hsubstitution : isOrdinary substitution = true) [Tidy d cs [] r [] true] :
    Tidy d cs [] (template kind substitution r) [] true := by
  have hparts : Tidy d cs [] (substituted substitution r) [] true := tidy_substituted hsubstitution
  refine ⟨fun {ks a c c' nodes} hks hc hbefore hrun ↦ ?_, fun hrun _ ↦ ?_⟩
  all_goals
    rw [template_eq] at hrun
    obtain ⟨children, hchildren, rfl⟩ := node_eq_some hrun
  case refine_2 => simp
  have hskip := c.gap_skipGap
  have hat := hskip.at hc
  obtain ⟨hc', hle, hlaid⟩ := Tidy.run_ordinary d ks (by decide) hat hchildren
  have hknown : Known d cs ⟨kind, true, false, none, c.skipGap.offset, c'.offset, children⟩ :=
    ⟨⟨fun _ ↦ ticked_of_parts d hat hc.skipGap_skipGap hchildren, fun _ ↦ hkind.1,
      fun hforked ↦ absurd hforked hkind.2.1,
      fun hmarkup ↦ absurd (markupKinds_subset hmarkup) hkind.2.1⟩,
      shaped_of_not_mem hkind.2.2⟩
  exact ⟨hc', Nat.le_trans hskip.offset_le hle,
    hlaid.node (GapTo.trans hbefore.grown (GapTo.of_gap hc hskip))
      (fun _ ↦ Tidy.ne_nil_of_run d cs rfl hchildren) hc'.isBoundary (.inr hknown)⟩

instance : g.Tidies cs g.templateString := tidy_template (by decide) (by decide)

instance : g.Tidies cs g.primaryType := by
  have htemplate : Tidy g.dialect cs []
      (template "template_literal_type" "template_type" (g.read .type)) [] true :=
    tidy_template (by decide) (by decide)
  unfold primaryType objectType parenthesizedType
  refine .of_still fun w ↦ ?_
  split
  case h_10 =>
    refine .of_still fun l ↦ ?_
    split <;> exact .prune
  all_goals exact .prune

instance : Tidy g.dialect cs before (g.typeSuffix before) [] true := by
  unfold typeSuffix
  exact .prune

instance : g.Tidies cs g.typeOperand := by
  unfold typeOperand inferType
  refine .of_still fun w ↦ ?_
  split <;> exact .prune

instance {kind operator : String} [Tidy d cs [] r made fills] :
    Tidy d cs [] (joinedTypes kind operator r) (kind :: operator :: made) fills := by
  unfold joinedTypes
  exact Tidy.mono inferInstance (by simp [unlessFilled]) (by simp)

instance : g.Tidies cs g.unionType := by
  unfold unionType
  exact .prune

instance : g.Tidies cs g.type := by
  unfold type
  exact .prune

/-! ### Classes -/

instance : Tidy d cs [] classModifier [] true := by
  unfold classModifier
  exact .prune

instance {goesOn : Bool} : Tidy g.dialect cs [] (g.fieldEnd goesOn) [] false := by
  unfold fieldEnd
  exact .prune

/-- A method of a typed class ends before the mark that follows its signature. -/
instance : g.Tidies cs g.typedMethod := by
  refine ⟨fun {ks a c c' nodes} hks hc hbefore hrun ↦ ?_, fun hrun _ ↦ ?_⟩
  all_goals
    replace hrun := after_offset (after_gap hrun)
    obtain ⟨modifiers, c₂, hmodifiers, hrun⟩ := bind_eq_some hrun
    obtain ⟨front, c₃, hfront, hrun⟩ := bind_eq_some hrun
    obtain ⟨body, c₄, hbody, hrun⟩ := bind_eq_some hrun
    replace hrun := after_offset hrun
  case refine_2 =>
    split at hrun
    · obtain ⟨rfl, rfl⟩ := pure_eq_some hrun
      simp
    · obtain ⟨ending, c₆, hending, hrun⟩ := bind_eq_some hrun
      obtain ⟨rfl, rfl⟩ := pure_eq_some hrun
      simp
  have hskip := c.gap_skipGap
  obtain ⟨hc₂, hle₂, hlaid₂⟩ := Tidy.run_ordinary g.dialect ks (by decide) (hskip.at hc) hmodifiers
  obtain ⟨hc₃, hle₃, hlaid₃⟩ := Tidy.run_ordinary g.dialect ks (by decide) hc₂ hfront
  obtain ⟨hc₄, hle₄, hlaid₄⟩ := Tidy.run_ordinary g.dialect ks (by decide) hc₃ hbody
  have hne : front ≠ [] := Tidy.ne_nil_of_run g.dialect cs rfl hfront
  have hmethod {kind : String} (hkind : isOrdinary kind = true) :
      Laid g.dialect cs ks a c₄.offset
        [⟨kind, true, false, none, c.skipGap.offset, c₄.offset, modifiers ++ front ++ body⟩] :=
    ((hlaid₂.append hlaid₃).append hlaid₄).ordinaryNode hkind
      (GapTo.trans hbefore.grown (GapTo.of_gap hc hskip)) (by simp [hne]) hc₄.isBoundary
  have hle := hskip.offset_le
  split at hrun
  · obtain ⟨rfl, rfl⟩ := pure_eq_some hrun
    exact ⟨hc₄, by omega, hmethod (by decide)⟩
  · obtain ⟨ending, c₆, hending, hrun⟩ := bind_eq_some hrun
    obtain ⟨rfl, rfl⟩ := pure_eq_some hrun
    obtain ⟨hc₆, hle₆, hlaid₆⟩ := Tidy.run_ordinary g.dialect ks (by decide) hc₄ hending
    exact ⟨hc₆, by omega, (hmethod (by split <;> decide)).append hlaid₆⟩

instance : g.Tidies cs g.typedField := by
  unfold typedField
  exact .prune

instance : g.Tidies cs g.classBody := by
  unfold classBody classMember plainMember staticBlock
  exact .prune

instance : g.Tidies cs g.heritage := by
  unfold heritage extended implementsClause
  exact .prune

instance : g.Tidies cs g.classRest := by
  unfold classRest
  exact .prune

instance : g.Tidies cs g.className := by
  unfold className
  exact .prune

instance : g.Tidies cs g.classExpression := by
  unfold classExpression
  exact .prune

instance : g.Tidies cs g.classDeclaration := by
  unfold classDeclaration
  exact .prune

instance : g.Tidies cs g.abstractClass := by
  unfold abstractClass
  exact .prune

/-! ### Markup -/

theorem not_mem_take_dashedLength (l : List Char) : '\n' ∉ l.take (dashedLength l) := by
  rw [dashedLength, Cursor.take_length_takeWhile]
  exact fun h ↦ absurd (mem_takeWhile_imp h) (by decide)

instance (priority := high) : Tidy d cs [] (dashedName "identifier") [] true := by
  refine tidy_of_takesName fun {c c' nodes} hrun ↦ ?_
  replace hrun := after_upcoming hrun
  split at hrun
  · cases hrun
  · next hlength =>
    refine ⟨_, _, c.gap_skipGap, by omega, fun hnil ↦ hlength (by rw [hnil]; rfl), ?_, hrun⟩
    rcases Nat.le_total (Lexeme.identifier c.skipGap.rest) (dashedLength c.skipGap.rest) with h | h
    · rw [Nat.max_eq_right h]
      exact not_mem_take_dashedLength _
    · rw [Nat.max_eq_left h]
      exact not_mem_take_identifier _

instance : Tidy d cs [] (dashedName kind) [kind] true := by
  refine tidy_of_takesLeaf fun {c c' nodes} hrun ↦ ?_
  replace hrun := after_upcoming hrun
  split at hrun
  · cases hrun
  · next hlength =>
    refine ⟨_, _, _, _, c.gap_skipGap, mem_cons_self, fun _ ↦ ⟨by omega, fun hnil ↦ ?_⟩, hrun⟩
    exact hlength (by rw [hnil]; rfl)

instance : Tidy d cs [] namespaceName [] true := by
  unfold namespaceName
  exact .prune

instance : Tidy d cs [] markupName [] true := by
  unfold markupName elementMember
  exact .prune

instance [Tidy d cs [] r made fills] :
    Tidy d cs [] (markupExpression r) ("jsx_expression" :: "\x7b" :: "\x7d" :: made) true := by
  unfold markupExpression
  exact Tidy.mono inferInstance (by intro k; simp [unlessFilled]; tauto) (by simp)

instance : g.Tidies cs g.markupSpread := by
  unfold markupSpread
  exact .prune

instance : Tidy d cs [] (lexeme "string" Lexeme.markupString?) [] true := by
  have h : Tidy d cs [] (lexeme "string" Lexeme.markupString?) ["string"] true := by
    refine tidy_lexeme fun l n h ↦ ?_
    unfold Lexeme.markupString? at h
    split at h
    · split at h
      · dsimp only at h
        split at h
        · cases h
          exact ⟨by omega, by simp⟩
        · cases h
      · cases h
    · cases h
  exact .prune

instance : g.Tidies cs g.tagInside := by
  unfold tagInside markupAttribute attributeValue
  exact .prune

instance : Tidy d cs [] closingTag [] true := by
  unfold closingTag
  exact .prune

/-- Text that does not count is **blank**. -/
theorem isBlank_of_not_countsAsText {afterLine : Bool} {l : List Char}
    (h : countsAsText afterLine l = false) : ∀ x ∈ l, isBlank x = true := by
  fun_induction countsAsText afterLine l with
  | case1 => simp
  | case2 afterLine l ih =>
    intro x hx
    rcases mem_cons.1 hx with rfl | hx
    · decide
    · exact ih h x hx
  | case3 afterLine c l _ ih =>
    intro x hx
    simp only [Bool.or_eq_false_iff, Bool.not_eq_false', Bool.and_eq_true] at h
    rcases mem_cons.1 hx with rfl | hx
    · simp [isBlank, h.1.2]
    · exact ih h.2 x hx

instance : Tidy d cs [] markupText ["jsx_text"] false := by
  refine ⟨fun {ks a c c' nodes} hks hc hbefore hrun ↦ ?_, by simp⟩
  replace hrun := after_immediate hrun
  split at hrun
  · cases hrun
  · next hlength =>
    split at hrun
    · have hleaf : TakesLeaf ["jsx_text"] c c' nodes "jsx_text" true (textLength c.rest) c :=
        ⟨.refl c, mem_cons_self,
          fun _ ↦ ⟨by omega, fun hnil ↦ hlength (by rw [hnil]; rfl)⟩, hrun⟩
      exact hleaf.laid hks hc hbefore
    · next hblank =>
      obtain ⟨_, c₂, hmodify, hrun⟩ := bind_eq_some hrun
      obtain rfl := (Prod.mk.inj (Option.some.inj hmodify)).2
      have hgap := Cursor.gap_advance (isBlank_of_not_countsAsText (by simpa using hblank))
      have hstay : Tidy d cs [] (pure []) [] false := inferInstance
      exact hstay.run_gap (nil_subset _) hc hgap hbefore hrun

instance : Tidy d cs [] characterReference [] true := by
  have h : Tidy d cs [] characterReference ["html_character_reference"] true := by
    refine tidy_of_takesLeaf fun {c c' nodes} hrun ↦ ?_
    replace hrun := after_immediate hrun
    cases hn : Lexeme.characterReference? c.rest with
    | none =>
      rw [hn] at hrun
      cases hrun
    | some n =>
      rw [hn] at hrun
      refine ⟨_, _, _, c, .refl c, mem_cons_self, fun _ ↦ ?_, hrun⟩
      unfold Lexeme.characterReference? at hn
      split at hn
      · next cs' hrest =>
        rw [hrest]
        dsimp only at hn
        split at hn
        · cases hn
          exact ⟨by omega, by simp⟩
        · cases hn
      · cases hn
  exact .prune

instance : Tidy g.dialect cs [] g.markupChild [] false := by
  have h : Tidy g.dialect cs [] g.markupChild ["jsx_text"] false := by
    refine ⟨fun {ks a c c' nodes} hks hc hbefore hrun ↦ ?_, by simp⟩
    replace hrun := after_immediate hrun
    generalize hrest : c.rest = l at hrun
    split at hrun
    · cases hrun
    · have hchild : g.Tidies cs (g.read .element) := inferInstance
      exact hchild.run (nil_subset _) hc hbefore hrun
    · have hchild : Tidy g.dialect cs []
          (markupExpression (alt [g.markupSpread, g.read .expressions])) [] true :=
        Tidy.prune
      exact hchild.run (nil_subset _) hc hbefore hrun
    · rcases orElse_eq_some hrun with hrun | hrun
      · have hchild : g.Tidies cs characterReference := inferInstance
        exact hchild.run (nil_subset _) hc hbefore hrun
      · rcases orElse_eq_some hrun with hrun | hrun
        · -- An ampersand that starts no reference stands for itself.
          have hleaf : TakesLeaf ["jsx_text"] c c' nodes "jsx_text" true 1 c :=
            ⟨.refl c, mem_cons_self, fun _ ↦ ⟨by omega, by simp [hrest]⟩, hrun⟩
          exact hleaf.laid hks hc hbefore
        · cases hrun
    · have hchild : Tidy g.dialect cs [] markupText ["jsx_text"] false := inferInstance
      exact hchild.run hks hc hbefore hrun
  exact .prune

/-- A rule that **gives** only nodes of some sort. -/
structure Gives (P : Node → Prop) (r : Rule) : Prop where
  all : ∀ {c c' : Cursor} {nodes : List Node}, r c = some (nodes, c') → ∀ n ∈ nodes, P n

section Gives

variable {P Q : Node → Prop}

theorem gives_pure : Gives P (pure []) := by
  refine ⟨fun hrun ↦ ?_⟩
  obtain ⟨rfl, -⟩ := pure_eq_some hrun
  simp

theorem gives_seq {rs : List Rule} (h : ∀ r ∈ rs, Gives P r) : Gives P (seq rs) := by
  induction rs with
  | nil => exact gives_pure
  | cons r rs ih =>
    refine ⟨fun hrun n hn ↦ ?_⟩
    obtain ⟨first, c₁, rest, hfirst, hrest, rfl⟩ := seq_cons_eq_some hrun
    rcases mem_append.1 hn with hn | hn
    · exact (h r mem_cons_self).all hfirst n hn
    · exact (ih fun s hs ↦ h s (mem_cons_of_mem _ hs)).all hrest n hn

theorem gives_alt {rs : List Rule} (h : ∀ r ∈ rs, Gives P r) : Gives P (alt rs) := by
  induction rs with
  | nil =>
    refine ⟨fun hrun ↦ ?_⟩
    cases hrun
  | cons r rs ih =>
    refine ⟨fun hrun ↦ ?_⟩
    rcases orElse_eq_some hrun with hrun | hrun
    · exact (h r mem_cons_self).all hrun
    · exact (ih fun s hs ↦ h s (mem_cons_of_mem _ hs)).all hrun

theorem Gives.opt (h : Gives P r) : Gives P (opt r) := by
  refine ⟨fun hrun ↦ ?_⟩
  rcases orElse_eq_some hrun with hrun | hrun
  · exact h.all hrun
  · exact gives_pure.all hrun

theorem Gives.many (h : Gives P r) : Gives P (many r) := by
  have hfrom (fuel : Nat) : Gives P (manyFrom r fuel) := by
    induction fuel with
    | zero => exact gives_pure
    | succ fuel ih =>
      refine ⟨fun hrun n hn ↦ ?_⟩
      rcases manyFrom_eq_some hrun with ⟨rfl, -⟩ | ⟨first, c₁, rest, hfirst, hrest, rfl⟩
      · simp at hn
      · rcases mem_append.1 hn with hn | hn
        · exact h.all hfirst n hn
        · exact ih.all hrest n hn
  refine ⟨fun hrun ↦ ?_⟩
  exact (hfrom _).all hrun

theorem Gives.field {role : Role} (h : Gives Q r) (hP : ∀ n, Q n → P (n.inRole role)) :
    Gives P (field role r) := by
  refine ⟨fun hrun n hn ↦ ?_⟩
  obtain ⟨inner, c₁, hinner, hrun⟩ := bind_eq_some hrun
  obtain ⟨rfl, -⟩ := pure_eq_some hrun
  obtain ⟨m, hm, rfl⟩ := mem_map.1 hn
  exact hP m (h.all hinner m hm)

theorem gives_node
    (hP : ∀ start stop children, P ⟨kind, true, false, none, start, stop, children⟩) :
    Gives P (node kind r) := by
  refine ⟨fun hrun ↦ ?_⟩
  obtain ⟨children, -, rfl⟩ := node_eq_some hrun
  simpa using hP _ _ children

theorem gives_bareMark {p : String}
    (hP : ∀ start stop, P ⟨p, false, false, none, start, stop, []⟩) : Gives P (bareMark p) := by
  refine ⟨fun hrun ↦ ?_⟩
  obtain ⟨rfl, -⟩ := take_eq_some (bareMark_eq_some hrun).2
  simpa using hP _ _

end Gives

theorem fitsTag_of_role {n : Node} (h : n.role = none) : n.FitsTag := by simp [Node.FitsTag, h]

/-- What stands in a **tag**. -/
theorem gives_tag (g : Grammar) : Gives Node.FitsTag (seq [bareMark "<", opt g.tagInside]) := by
  have hname : Gives Node.FitsTag (field .name markupName) :=
    Gives.field (Q := fun _ ↦ True) ⟨fun _ _ _ ↦ trivial⟩ fun n _ ↦ by
      simp [Node.FitsTag, Node.inRole]
  have harguments : Gives Node.FitsTag (g.optTyped g.typeArguments) := by
    unfold optTyped
    split
    · exact Gives.opt (gives_node fun _ _ _ ↦ fitsTag_of_role rfl)
    · exact gives_pure
  have hattribute : Gives Node.FitsTag g.markupAttribute := by
    refine Gives.field (Q := fun n ↦ n.kind ∈ Node.attributeKinds) (gives_alt ?_) fun n hn ↦
      ⟨by simp [Node.inRole], fun _ ↦ hn⟩
    simp only [mem_cons, not_mem_nil, or_false, forall_eq_or_imp, forall_eq]
    exact ⟨gives_node fun _ _ _ ↦ by simp [Node.attributeKinds],
      gives_node fun _ _ _ ↦ by simp [Node.attributeKinds]⟩
  have hinside : Gives Node.FitsTag g.tagInside := by
    refine gives_seq ?_
    simp only [mem_cons, not_mem_nil, or_false, forall_eq_or_imp, forall_eq]
    exact ⟨hname, harguments, hattribute.many⟩
  refine gives_seq ?_
  simp only [mem_cons, not_mem_nil, or_false, forall_eq_or_imp, forall_eq]
  exact ⟨gives_bareMark fun _ _ ↦ fitsTag_of_role rfl, hinside.opt⟩

instance : g.Tidies cs g.element := by
  refine ⟨fun {ks a c c' nodes} hks hc hbefore hrun ↦ ?_, fun hrun _ ↦ ?_⟩
  all_goals
    replace hrun := after_offset (after_gap hrun)
    obtain ⟨front, c₂, hfront, hrun⟩ := bind_eq_some hrun
    dsimp only at hrun
  case refine_2 =>
    split at hrun
    all_goals
      obtain ⟨closes, c₃, -, hrun⟩ := bind_eq_some hrun
      split at hrun
      · obtain ⟨rfl, rfl⟩ := pure_eq_some hrun
        simp
      · obtain ⟨stop, c₅, -, hrun⟩ := bind_eq_some hrun
        obtain ⟨rest, c₆, -, hrun⟩ := bind_eq_some hrun
        obtain ⟨stop, c₇, -, hrun⟩ := bind_eq_some hrun
        obtain ⟨rfl, rfl⟩ := pure_eq_some hrun
        simp
  have hfront_ne : front ≠ [] := Tidy.ne_nil_of_run g.dialect cs rfl hfront
  have hmark (p : String) : Gives Node.FitsTag (bareMark p) :=
    gives_bareMark fun _ _ ↦ fitsTag_of_role rfl
  have hfits {more : List Node} (hmore : ∀ m ∈ more, m.FitsTag) : ∀ m ∈ front ++ more, m.FitsTag :=
    fun m hm ↦ (mem_append.1 hm).elim ((gives_tag g).all hfront m) (hmore m)
  have hskip := c.gap_skipGap
  have hle := hskip.offset_le
  have hat := hskip.at hc
  have hgap := GapTo.trans hbefore.grown (GapTo.of_gap hc hskip)
  obtain ⟨hc₂, hle₂, hlaid₂⟩ := Tidy.run_ordinary g.dialect ks (by decide) hat hfront
  split at hrun
  -- The mark of a tag that closes itself is looked for or not; the rest is the same.
  all_goals
    obtain ⟨closes, c₃, hcloses, hrun⟩ := bind_eq_some hrun
    obtain ⟨hc₃, hle₃, hlaid₃⟩ := Tidy.run_ordinary g.dialect ks (by decide) hc₂ hcloses
    split at hrun
    · next hcloses_ne =>
      obtain ⟨rfl, rfl⟩ := pure_eq_some hrun
      have hlength : 2 ≤ (front ++ closes).length := by
        have := length_pos_iff.2 hfront_ne
        have : 0 < closes.length := length_pos_iff.2 (by simpa using hcloses_ne)
        simp only [length_append]
        omega
      have hcloses_fits : ∀ m ∈ closes, m.FitsTag := by
        first
        | exact gives_pure.all hcloses
        | exact (hmark _).opt.all hcloses
      exact ⟨hc₃, by omega,
        (hlaid₂.append hlaid₃).node hgap (by simp [hfront_ne]) hc₃.isBoundary
          (.inr (known_of_tagged (by simp [Node.markupKinds]) hlength
            (tagged_of_fitsTag (hfits hcloses_fits))))⟩
    · next hempty =>
      obtain rfl : closes = [] := by simpa using hempty
      obtain ⟨bracket, c₄, hbracket, hrun⟩ := bind_eq_some hrun
      replace hrun := after_offset hrun
      obtain ⟨rest, c₆, hrest, hrun⟩ := bind_eq_some hrun
      obtain ⟨rfl, rfl⟩ := pure_eq_some hrun
      obtain ⟨hc₄, hle₄, hlaid₄⟩ := Tidy.run_ordinary g.dialect ks (by decide) hc₃ hbracket
      obtain ⟨hc₆, hle₆, hlaid₆⟩ := Tidy.run_ordinary g.dialect ks (by decide) hc₄ hrest
      have hopening : Laid g.dialect cs ks c.skipGap.offset c₄.offset
          [⟨"jsx_opening_element", true, false, some .openTag, c.skipGap.offset, c₄.offset,
            front ++ bracket⟩] :=
        (hlaid₂.append (hlaid₃.append hlaid₄)).ordinaryNode (by decide)
          (GapTo.refl hat.isBoundary) (by simp [hfront_ne]) hc₄.isBoundary
      have hrest_ne := length_pos_iff.2 (Tidy.ne_nil_of_run g.dialect cs rfl hrest)
      exact ⟨hc₆, by omega,
        (hopening.append hlaid₆).node hgap (by simp) hc₆.isBoundary
          (.inr (known_of_tagged (by simp [Node.markupKinds])
            (by simp only [length_cons]; omega)
            (tagged_of_opening rfl rfl rfl (hfits ((hmark _).all hbracket)))))⟩

/-! ### Expressions -/

instance : g.Tidies cs g.objectLiteral := by
  unfold objectLiteral objectEntry objectMethod spread
  exact .prune

instance : g.Tidies cs g.arrayLiteral := by
  unfold arrayLiteral spread
  exact .prune

instance : g.Tidies cs (g.angleOperand bare) := by
  unfold angleOperand
  split <;> exact .prune

instance : g.Tidies cs g.newExpression := by
  unfold newExpression constructorStep
  exact .prune

instance : g.Tidies cs (g.wordOperand bare) := by
  refine .of_still fun w ↦ ?_
  split <;> exact .prune

instance : g.Tidies cs (g.operand bare) := by
  refine .of_still fun l ↦ ?_
  split <;> exact .prune

instance : Tidy d cs [] chainMark [] true := by
  have h : Tidy d cs [] chainMark ["optional_chain"] true :=
    tidy_of_upcoming (fun _ _ hl ↦ ⟨by omega, by rintro rfl; exact nomatch hl⟩) mem_cons_self
  exact .prune

instance : Tidy d cs [] afterTypeArguments [] false := by
  unfold afterTypeArguments
  exact .prune

instance : Tidy g.dialect cs before (g.postfixStep before) [] true := by
  unfold postfixStep optionalStep indexStep templateStep genericStep
  refine .of_still fun l ↦ ?_
  split <;> exact .prune

instance : g.Tidies cs (g.postfixed bare) := by
  unfold postfixed
  exact .prune

instance [Tidy g.dialect cs [] r made fills] :
    Tidy g.dialect cs [] (g.prefixed kind r bare) (kind :: made) true := by
  unfold prefixed
  exact Tidy.mono inferInstance (by simp [unlessFilled]) (by simp)

instance : g.Tidies cs (g.usingAssignment bare) := by
  unfold usingAssignment
  exact .prune

instance : g.Tidies cs (g.unary bare) := by
  unfold unary awaited
  refine .of_still fun w ↦ ?_
  split
  case h_5 =>
    refine .of_still fun l ↦ ?_
    split <;> exact .prune
  all_goals exact .prune

instance {w : String} : Tidy g.dialect cs before (g.castStep before w) [] true := by
  unfold castStep castType
  exact .prune

instance : Tidy g.dialect cs before (g.afterCast before) [] true := by
  unfold afterCast
  exact .prune

theorem isOrdinary_of_strength? {w : String} {n : Nat} (h : strength? w = some n) :
    isOrdinary w = true := by
  have hnone : ∀ k ∈ "" :: Node.templateKind :: (typedKinds ++ Node.forkedKinds)
      ++ Node.shapedKinds, strength? k = none := by decide
  have hout : ∀ k ∈ "" :: Node.templateKind :: (typedKinds ++ Node.forkedKinds)
      ++ Node.shapedKinds, w ≠ k := by
    rintro k hk rfl
    simp [hnone w hk] at h
  simp only [isOrdinary, Node.isFree, Bool.and_eq_true, bne_iff_ne, Bool.not_eq_true',
    contains_eq_mem, decide_eq_false_iff_not]
  exact ⟨⟨⟨hout _ (by simp), hout _ (by simp)⟩,
    fun hw ↦ hout _ (mem_append_left _ (by simp [mem_append.1 hw])) rfl⟩,
    fun hw ↦ hout _ (mem_append_right _ hw) rfl⟩

instance {level : Nat} : Tidy g.dialect cs before (g.binaryStep bare level before) [] true := by
  refine .of_still fun w ↦ .of_still fun l ↦ ?_
  dsimp only
  generalize (if w.isEmpty = true then Lexeme.punctuator l else w) = operator
  split
  · infer_instance
  · next s hs =>
    have hoperator := isOrdinary_of_strength? hs
    have hkind : isOrdinary "binary_expression" = true := by decide
    split
    · infer_instance
    · split
      · exact .prune
      · exact .prune (by simp [hoperator, hkind, unlessFilled])

instance {level : Nat} : g.Tidies cs (g.binary bare level) := by
  unfold binary
  exact .prune

instance : Tidy g.dialect cs before (g.conditionStep bare before) [] true := by
  unfold conditionStep
  exact .prune

instance {operator : String} :
    Tidy g.dialect cs before (g.assignStep bare before operator) [operator] true := by
  have hkinds : isOrdinary "assignment_expression" = true
      ∧ isOrdinary "augmented_assignment_expression" = true ∧ isOrdinary "=" = true := by decide
  unfold assignStep
  exact .prune (by simp [hkinds, unlessFilled])

instance : g.Tidies cs (g.conditional bare) := by
  have hkinds : ("=" :: compoundOperators).all isOrdinary = true := by decide
  refine (Tidy.bind inferInstance fun left ↦ .of_still fun l ↦ ?_ :
    Tidy g.dialect cs [] (g.conditional bare) ([] ++ []) (true || false))
  dsimp only
  split
  · exact .prune
  · split
    · next h =>
      have hoperator := all_eq_true.1 hkinds (Lexeme.punctuator l) (by simpa using h)
      exact .prune (by simp [hoperator])
    · infer_instance

instance : g.Tidies cs (g.assignment bare) := by
  unfold assignment destructuring yieldExpression
  refine .of_still fun l ↦ ?_
  split
  case h_3 =>
    refine .of_still fun w ↦ ?_
    split <;> exact .prune
  all_goals exact .prune

instance : g.Tidies cs g.expressions := by
  unfold expressions
  exact .prune

/-! ### Declarations -/

instance : g.Tidies cs g.oldVariables := by
  unfold oldVariables variableList declarator
  exact .prune

instance : g.Tidies cs g.blockVariables := by
  unfold blockVariables variableList declarator
  exact .prune

instance : g.Tidies cs g.interface := by
  unfold interface extendsTypes
  exact .prune

instance : Tidy g.dialect cs [] g.typeAlias ["type"] true := by
  unfold typeAlias
  exact .prune

/-- A rule that makes a node of a kind that **forks** and is no element. -/
theorem tidy_forked {made : List String} (hkind : kind ∈ Node.forkedKinds)
    (hmarkup : kind ∉ Node.markupKinds) (hr : Tidy d cs [] r made true)
    (hlength : ∀ {c c' : Cursor} {children : List Node}, r c = some (children, c') →
      2 ≤ children.length)
    (hshaped : ∀ {c c' : Cursor} {children : List Node}, r c = some (children, c') →
      ∀ start stop, Node.Shaped cs ⟨kind, true, false, none, start, stop, children⟩) :
    Tidy d cs [] (node kind r) made true :=
  tidy_node hr fun hrun start stop ↦
    ⟨fine_of_forked hkind (hlength hrun) fun h ↦ absurd h hmarkup, hshaped hrun start stop⟩

/-- An import has the word and what follows it as **children**. -/
theorem tidy_importNode {rs : List Rule} {made : List String}
    (hall : Tidy d cs [] (seq (word "import" :: rs)) made true)
    (hrest : Tidy d cs [] (seq rs) made true) :
    Tidy d cs [] (node "import_statement" (seq (word "import" :: rs))) made true := by
  refine tidy_forked (by decide) (by decide) hall (fun {c c' children} hrun ↦ ?_)
    fun _ _ _ ↦ shaped_of_not_mem (by simp only; decide)
  obtain ⟨front, c₁, back, hfront, hback, rfl⟩ := seq_cons_eq_some hrun
  have := length_pos_iff.2 (Tidy.ne_nil_of_run d cs rfl hfront)
  have := length_pos_iff.2 (hrest.ne_nil hback (.inl rfl))
  simp only [length_append]
  omega

instance : g.Tidies cs g.enum := by
  unfold enum enumMember
  refine tidy_forked (by decide) (by decide) (.prune)
    (fun {c c' children} hrun ↦ ?_) (shaped_of_shows (by decide) (by decide))
  -- The word and the name are two children.
  obtain ⟨const, c₁, others, -, hothers, rfl⟩ := seq_cons_eq_some hrun
  obtain ⟨front, c₂, back, hfront, hback, rfl⟩ := seq_cons_eq_some hothers
  have := length_pos_iff.2 (Tidy.ne_nil_of_run g.dialect cs rfl hfront)
  have := length_pos_iff.2 (Tidy.ne_nil_of_run g.dialect cs rfl hback)
  simp only [length_append]
  omega

instance : Tidy d cs [] nestedName [] true := by
  unfold nestedName
  exact .prune

instance : g.Tidies cs g.moduleBlock := by
  unfold moduleBlock
  exact .prune

instance : g.Tidies cs g.importAlias := by
  unfold importAlias nestedName
  exact tidy_shown (by decide) (by decide) (by decide) (.prune)

instance : g.Tidies cs g.plainDeclaration := by
  refine .of_still fun w ↦ ?_
  split <;> exact .prune

instance : Tidy g.dialect cs [] g.typedDeclaration ["type"] true := by
  refine .of_still fun w ↦ ?_
  split <;> exact .prune

instance : Tidy g.dialect cs [] g.ambient ["type"] true := by
  unfold ambient
  exact .prune

instance : g.Tidies cs g.declaration := by
  unfold declaration
  exact .prune

/-! ### Imports and exports -/

instance : Tidy d cs [] fromClause [] true := by
  unfold fromClause
  exact .prune

instance : Tidy g.dialect cs [] g.importAttribute [] false := by
  unfold importAttribute
  exact .prune

instance : Tidy d cs [] exportedName [] true := by
  unfold exportedName
  exact .prune

instance : Tidy d cs [] nameEnd [] false := by
  unfold nameEnd
  infer_instance

instance : Tidy d cs [] importedName [] true := by
  unfold importedName
  exact .prune

instance : Shows importedName Node.boundPatterns := by
  unfold importedName exportedName nameEnd
  infer_instance

instance : g.Tidies cs g.importSpecifier := by
  have hvalue : g.Tidies cs (node "import_specifier" importedName) :=
    tidy_shown (by decide) (by decide) (by decide) inferInstance
  have htype : Tidy g.dialect cs [] (node "import_specifier"
      (seq [oneWord ["type", "typeof"], importedName])) ["type"] true :=
    tidy_shown (by decide) (by decide) (by decide) (.prune)
  unfold importSpecifier
  exact .prune

instance : g.Tidies cs g.namedImports := by
  unfold namedImports
  exact .prune

instance : Tidy d cs [] namespaceImport [] true :=
  tidy_shown (by decide) (by decide) (by decide) (.prune)

instance : g.Tidies cs g.importClause := by
  have hspace : Shows namespaceImport [[.part "namespace_import"]] := by
    unfold namespaceImport
    infer_instance
  have hlist : Shows g.namedImports [[.part "named_imports"]] := by
    unfold namedImports
    infer_instance
  exact tidy_shown (by decide) (by decide) (by decide) (.prune)

instance (priority := high) : g.Tidies cs (g.whenTyped importRequire) := by
  unfold whenTyped
  split
  · next htyped =>
    exact tidy_node (.prune) fun hrun start stop ↦
      ⟨fine_of_mem_typedKinds htyped (by simp [typedKinds]),
        shaped_of_shows (by decide) (by decide) hrun start stop⟩
  · infer_instance

instance : g.Tidies cs g.importRest := by
  unfold importRest
  exact .prune

instance : g.Tidies cs g.importStatement := by
  have htyped : Tidy g.dialect cs [] (node "import_statement"
      (seq [word "import", oneWord ["type", "typeof"], g.importRest])) ["type"] true :=
    tidy_importNode (.prune) (.prune)
  have hplain : Tidy g.dialect cs [] (node "import_statement"
      (seq [word "import", g.importRest])) [] true :=
    tidy_importNode (.prune) (.prune)
  unfold importStatement
  exact .prune

instance : g.Tidies cs g.reexport := by
  unfold reexport exportClause exportSpecifier exportedAs
  exact .prune

instance : g.Tidies cs g.exportStatement := by
  unfold exportStatement defaultExport typedExport
  exact .prune

/-! ### Statements -/

instance : g.Tidies cs g.block := by
  unfold block
  exact .prune

instance : g.Tidies cs g.expressionStatement := by
  unfold expressionStatement
  exact .prune

instance : Tidy d cs [] emptyStatement [] true := by
  unfold emptyStatement
  exact .prune

instance : g.Tidies cs g.forEach := by
  unfold forEach loopTarget
  exact .prune

instance : g.Tidies cs g.forStatement := by
  unfold forStatement loopPart
  exact .prune

instance : g.Tidies cs g.openStatement := by
  unfold openStatement labeledStatement
  exact .prune

instance {kind w : String} : Tidy g.dialect cs [] (g.jump kind w) [kind, w, "statement_identifier"] true := by
  unfold jump
  exact Tidy.mono inferInstance (by simp [unlessFilled]) (by simp)

instance : g.Tidies cs g.wordStatement := by
  unfold wordStatement ifStatement whileStatement doStatement switchStatement switchCase
    tryStatement catchClause withStatement returnStatement throwStatement debuggerStatement
  refine .of_still fun w ↦ ?_
  split <;> exact .prune

instance : g.Tidies cs g.statement := by
  refine .of_still fun l ↦ ?_
  split <;> exact .prune

end

end Grammar

end ScriptTree
