import ScriptTree.Proofs.IntegerLiteral
import ScriptTree.Proofs.Surroundings

/-!
# The numbers of enum members

A member of an enum without a value gets the number after that of the member before it. What that
comes to is told here from the members alone: the nearest member before it that has a value decides.
If there is none, the member gets its **index**; if that is an integer literal, it gets the value of
the literal and the **distance** to it; and if that is a string, the number is not known, and it is
told from the member just before it when the script runs.

The loop over the members carries the last number and the last member. What it carries is a fact
about the members that are done, so each kind of member is looked at once, and the rest is induction
along the members. The values of members are written as they stand in the script: the walk passes
over enums, and constructors assign their properties outside of them.

## Main results

* `Transform.Follows.step`, `Transform.follows_foldlM`: one member, and all of them.
* `Transform.replacement?_of_enum`: where a compiled enum is put.
* `Transform.compileEnum_numbered`: the numbers of the members of an enum.
-/

namespace ScriptTree.Transform

open List Node
open Utf8 (IsBoundary size)
open Node (preorderAll)

/-! ### Members and their values -/

/-- How a member of an enum gets its value: from the members before it, from an integer literal, or
from a string. -/
inductive Initial where
  | bare
  | literal (text : Text) (value : Nat)
  | string (text : Text)

/-- Whether a value is a string. -/
def Initial.isString : Initial → Bool
  | .string _ => true
  | _ => false

/-- The **members** of an enum. -/
def enumMembers (n : Node) : List Node := ((n.child? .body).map (·.parts)).getD []

/-- The name of a member. -/
def memberName (member : Node) : Node :=
  if member.kind == "enum_assignment" then (member.child? .name).getD member else member

/-- The value that a member is written with. -/
def memberInitial? (member : Node) : Option Node :=
  if member.kind == "enum_assignment" then member.child? .value else none

section Spec

variable (cs : List Char)

/-- The name of an enum. -/
def enumName (n : Node) : Text := ownText cs ((n.child? .name).getD n)

/-- The name of a member as a value. A name in quotes may have escapes that stand for nothing. -/
def memberWord (member : Node) : Except EscapeFault Text :=
  if (memberName member).kind == "string" then
    unescape ((ownText cs (memberName member)).drop 1).dropLast
  else .ok (ownText cs (memberName member))

/-- How a member **gets its value**: it has none, an integer literal below 10^4000, or a string. -/
inductive Initialized (member : Node) : Initial → Prop
  | bare (hvalue : memberInitial? member = none) : Initialized member .bare
  | literal {value : Node} {v : Nat} (hvalue : memberInitial? member = some value)
      (hkind : value.kind = "number")
      (hliteral : Number.IntegerLiteral (between cs value.start value.stop) v)
      (hbound : v < 10 ^ 4000) : Initialized member (.literal (ownText cs value) v)
  | string {value : Node} (hvalue : memberInitial? member = some value)
      (hkind : value.kind = "string" ∨ value.kind = "template_string") :
      Initialized member (.string (ownText cs value))

/-- What a member **declares**: its name in quotes, and how it gets its value. -/
structure Declares (member : Node) (m : Text × Initial) : Prop where
  name : ∃ word, memberWord cs member = .ok word ∧ m.1 = JsonString.quote true word
  initial : Initialized cs member m.2

end Spec

section Values

variable (name : Text) (done : List (Text × Initial))

/-- The **value** of a member that follows some members. -/
inductive Valued : Initial → Text → Prop
  | literal {text : Text} {v : Nat} : Valued (.literal text v) text
  | string {text : Text} : Valued (.string text) text
  | index (hbare : ∀ m ∈ done, m.2 = .bare) : Valued .bare (Text.ofNat done.length)
  | counted {earlier later : List (Text × Initial)} {quoted text : Text} {v : Nat}
      (hsplit : done = earlier ++ (quoted, .literal text v) :: later)
      (hbare : ∀ m ∈ later, m.2 = .bare) : Valued .bare (Text.ofNat (v + (later.length + 1)))
  | computed {earlier later : List (Text × Initial)} {quoted text : Text} {last : Text × Initial}
      (hsplit : done = earlier ++ (quoted, .string text) :: later)
      (hbare : ∀ m ∈ later, m.2 = .bare) (hlast : done.getLast? = some last) :
      Valued .bare (memberAccess name last.1 ++ (" + 1" : Text))

/-- **One assignment for each member**, in their order. The name of a member is assigned to its
value as well, unless that is a string. -/
structure Assigned (members : List (Text × Initial)) (assignments : List Text) : Prop where
  length : assignments.length = members.length
  each : ∀ done m rest, members = done ++ m :: rest → ∃ value, Valued name done m.2 value ∧
    assignments[done.length]? = some (memberAssignment name m.1 value !m.2.isString)

/-- An enum with some assignments. -/
def enumText (assignments : List Text) : Text :=
  ("var " : Text) ++ name ++ ("; (function (" : Text) ++ name ++ (") \x7b " : Text)
    ++ Text.join " " assignments
    ++ (" \x7d)(" : Text) ++ name ++ (" || (" : Text) ++ name ++ (" = \x7b\x7d));" : Text)

end Values

variable {tree : SourceTree} {names : MarkupNames} {path : Option Path} {d : Dialect}
  {cs : List Char} {n m member : Node} {edits edits' : EditSet} {w w' : Work} {name text : Text}
  {done ms : List (Text × Initial)} {initial : Initial} {state state' : EnumState}
  {number : Option Number}

/-! ### One member -/

/-- The **last number** after some members, if it is known. -/
inductive Counts : List (Text × Initial) → Option Number → Prop
  | start {done : List (Text × Initial)} (hbare : ∀ m ∈ done, m.2 = .bare) :
      Counts done (some (.integer ((done.length : Int) - 1)))
  | literal {earlier later : List (Text × Initial)} {quoted text : Text} {v : Nat}
      (hbound : v < 10 ^ 4000) (hbare : ∀ m ∈ later, m.2 = .bare) :
      Counts (earlier ++ (quoted, .literal text v) :: later)
        (some (.integer ((v + later.length : Nat) : Int)))
  | string {earlier later : List (Text × Initial)} {quoted text : Text}
      (hbare : ∀ m ∈ later, m.2 = .bare) :
      Counts (earlier ++ (quoted, .string text) :: later) none

/-- What the loop over the members **keeps**. -/
structure Follows (name : Text) (done : List (Text × Initial)) (state : EnumState) : Prop where
  assigned : Assigned name done state.assignments
  counts : Counts done state.number
  previous : ∀ last, done.getLast? = some last → state.previous = memberAccess name last.1

theorem follows_nil (name : Text) : Follows name [] {} :=
  ⟨⟨rfl, by simp⟩, .start (by simp), by simp⟩

theorem bare_append (h : ∀ m ∈ done, m.2 = .bare) (quoted : Text) :
    ∀ m ∈ done ++ [(quoted, .bare)], m.2 = .bare := by
  intro m hm
  rcases mem_append.1 hm with hm | hm
  · exact h m hm
  · rw [mem_singleton.1 hm]

/-- A **known** last number: the next one is a natural number, and a member that gets it has the
value that it should have. -/
theorem Counts.next {last : Number} (h : Counts done (some last)) (name : Text) :
    ∃ k : Nat, last.succ = .integer k ∧ k ≤ 10 ^ 4000 + done.length ∧
      Valued name done .bare (Text.ofNat k) ∧
      ∀ quoted, Counts (done ++ [(quoted, .bare)]) (some last.succ) := by
  cases h with
  | start hbare =>
    have hsucc : Number.succ (.integer ((done.length : Int) - 1)) = .integer done.length := by
      simp [Number.succ]
    refine ⟨done.length, hsucc, Nat.le_add_left _ _, .index hbare, fun quoted ↦ ?_⟩
    have hcounts := Counts.start (bare_append hbare quoted)
    rwa [length_append, length_singleton, Nat.cast_add, Nat.cast_one,
      Int.add_sub_cancel, ← hsucc] at hcounts
  | @literal earlier later quoted text v hbound hbare =>
    have hsucc : Number.succ (.integer ((v + later.length : Nat) : Int))
        = .integer ((v + (later.length + 1) : Nat) : Int) := rfl
    refine ⟨v + (later.length + 1), hsucc, ?_, .counted rfl hbare, fun next ↦ ?_⟩
    · rw [length_append, length_cons]
      exact Nat.add_le_add hbound.le (Nat.le_add_left _ _)
    · have hcounts :
          Counts (earlier ++ (quoted, .literal text v) :: (later ++ [(next, .bare)])) _ :=
        .literal hbound (bare_append hbare next)
      rwa [length_append, length_singleton, ← cons_append, ← append_assoc,
        ← hsucc] at hcounts

/-- A last number that is **not known** stays so. -/
theorem Counts.unknown (h : Counts done none) (name : Text) {last : Text × Initial}
    (hlast : done.getLast? = some last) :
    Valued name done .bare (memberAccess name last.1 ++ (" + 1" : Text)) ∧
      ∀ quoted, Counts (done ++ [(quoted, .bare)]) none := by
  cases h with
  | @string earlier later quoted text hbare =>
    refine ⟨.computed rfl hbare hlast, fun next ↦ ?_⟩
    have hcounts : Counts (earlier ++ (quoted, .string text) :: (later ++ [(next, .bare)])) none :=
      .string (bare_append hbare next)
    rwa [← cons_append, ← append_assoc] at hcounts

theorem Counts.ne_nil (h : Counts done none) : done ≠ [] := by
  cases h with
  | string => simp

theorem numberText_natCast {k : Nat} (hk : k < 10 ^ Number.digitLimit) :
    numberText (.integer k) = .ok (Text.ofNat k) := by
  rw [numberText, Number.text_natCast, if_pos hk]

theorem eq_ofNat_of_numberText {k : Nat} (h : numberText (.integer k) = .ok text) :
    text = Text.ofNat k := by
  rw [numberText, Number.text_natCast] at h
  by_cases hk : k < 10 ^ Number.digitLimit
  · rw [if_pos hk] at h
    exact (Except.ok.inj h).symm
  · rw [if_neg hk] at h
    cases h

/-- The numbers of fewer than 10^4000 members after a literal below 10^4000 can be **written**. -/
theorem lt_digitLimit {k l : Nat} (hk : k ≤ 10 ^ 4000 + l) (hl : l ≤ 10 ^ 4000) :
    k < 10 ^ Number.digitLimit := by
  obtain ⟨j, hj⟩ : ∃ j, Number.digitLimit = 4000 + 1 + j := ⟨299, rfl⟩
  have hpos : 0 < (10 : Nat) ^ 4000 := pow_pos (by decide) 4000
  rw [hj, pow_add, pow_add, pow_one]
  refine Nat.lt_of_lt_of_le ?_ (Nat.le_mul_of_pos_right _ (Nat.pow_pos (by decide)))
  generalize (10 : Nat) ^ 4000 = small at *
  omega

/-! ### The loop -/

theorem enumMember_eq (tree : SourceTree) (edits : EditSet) (name : Text) (state : EnumState)
    (member : Node) :
    enumMember tree edits name state member = (do
      let quoted := JsonString.quote true (← memberKey tree (memberName member))
      let (text, number, reverse) ← memberValue tree edits state (memberInitial? member)
      return ⟨state.assignments ++ [memberAssignment name quoted text reverse], number,
        memberAccess name quoted⟩) := by
  unfold enumMember memberName memberInitial?
  cases member.kind == "enum_assignment" <;> rfl

theorem memberKey_eq_ok_iff (hover : tree.Over d cs)
    (hname : memberName member ∈ tree.root.preorder) {word : Text} :
    memberKey tree (memberName member) = .ok word ↔ memberWord cs member = .ok word := by
  rw [memberKey, nodeText_eq_ownText hover hname, memberWord]
  show (if _ then _ else _) = _ ↔ _
  split
  · unfold cooked
    split <;> simp_all
  · rw [pure_eq_ok_iff, Except.ok.injEq]

/-- **One more assignment**, for a member with the value that it should have. -/
theorem Assigned.append {assignments : List Text} {m : Text × Initial} {value : Text}
    (h : Assigned name done assignments) (hvalue : Valued name done m.2 value) :
    Assigned name (done ++ [m])
      (assignments ++ [memberAssignment name m.1 value !m.2.isString]) := by
  refine ⟨by simp [h.length], fun before k rest hsplit ↦ ?_⟩
  rcases eq_nil_or_concat rest with rfl | ⟨rest, last, rfl⟩
  · obtain ⟨rfl, hk⟩ := append_inj' hsplit rfl
    obtain rfl : m = k := by simpa using hk
    exact ⟨value, hvalue, by rw [← h.length]; simp⟩
  · rw [concat_eq_append, ← cons_append, ← append_assoc] at hsplit
    obtain ⟨rfl, -⟩ := append_inj' hsplit rfl
    obtain ⟨v, hv, hassignment⟩ := h.each before k rest rfl
    refine ⟨v, hv, ?_⟩
    rw [getElem?_append_left, hassignment]
    exact (List.getElem?_eq_some_iff.1 hassignment).1

/-- The **value** of one more member: it is as it should be, and so is the last number. -/
theorem Follows.memberValue_cases (h : Follows name done state)
    (hinitial : Initialized cs member initial)
    (hrendered : ∀ value ∈ memberInitial? member,
      tree.rendered edits value = .ok (ownText cs value)) :
    (∀ written, memberValue tree edits state (memberInitial? member) = .ok written →
      Valued name done initial written.1 ∧ written.2.2 = (!initial.isString) ∧
        ∀ quoted, Counts (done ++ [(quoted, initial)]) written.2.1) ∧
      (done.length ≤ 10 ^ 4000 →
        ∃ written, memberValue tree edits state (memberInitial? member) = .ok written) := by
  cases hinitial with
  | bare hvalue =>
    simp only [hvalue, memberValue]
    cases hnumber : state.number with
    | none =>
      have hcounts := hnumber ▸ h.counts
      obtain ⟨last, hlast⟩ := Option.ne_none_iff_exists'.1
        (mt getLast?_eq_none_iff.1 hcounts.ne_nil)
      obtain ⟨hvalued, hnext⟩ := hcounts.unknown name hlast
      refine ⟨fun written hwritten ↦ ?_, fun _ ↦ ⟨_, rfl⟩⟩
      obtain rfl := pure_eq_ok_iff.1 hwritten
      exact ⟨h.previous last hlast ▸ hvalued, rfl, hnext⟩
    | some last =>
      have hcounts := hnumber ▸ h.counts
      obtain ⟨k, hsucc, hk, hvalued, hnext⟩ := hcounts.next name
      refine ⟨fun written hwritten ↦ ?_, fun hlength ↦ ?_⟩
      · obtain ⟨text, htext, hwritten⟩ := bind_eq_ok_iff.1 hwritten
        obtain rfl := pure_eq_ok_iff.1 hwritten
        rw [hsucc] at htext
        exact ⟨eq_ofNat_of_numberText htext ▸ hvalued, rfl, hnext⟩
      · simp only [hsucc, numberText_natCast (lt_digitLimit hk hlength)]
        exact ⟨_, rfl⟩
  | @literal value v hvalue hkind hliteral hbound =>
    have hread : Number.read? (ownText cs value) = some (.integer v) :=
      Number.read?_of_integerLiteral hliteral
        (lt_digitLimit (hbound.le.trans (Nat.le_add_right _ 0)) (Nat.zero_le _))
    have hwritten : memberValue tree edits state (memberInitial? member)
        = .ok (ownText cs value, some (.integer v), true) := by
      simp only [memberValue, hvalue, hrendered value (hvalue ▸ rfl), hkind]
      exact congrArg (fun number ↦ Except.ok (ownText cs value, number, true)) hread
    rw [hwritten]
    refine ⟨fun written h ↦ ?_, fun _ ↦ ⟨_, rfl⟩⟩
    cases h
    exact ⟨.literal, rfl, fun quoted ↦ .literal hbound (forall_mem_nil _)⟩
  | @string value hvalue hkind =>
    have hwritten : memberValue tree edits state (memberInitial? member)
        = .ok (ownText cs value, none, false) := by
      simp only [memberValue, hvalue, hrendered value (hvalue ▸ rfl)]
      rcases hkind with hkind | hkind <;> (rw [hkind]; rfl)
    rw [hwritten]
    refine ⟨fun written h ↦ ?_, fun _ ↦ ⟨_, rfl⟩⟩
    cases h
    exact ⟨.string, rfl, fun quoted ↦ .string (forall_mem_nil _)⟩

/-- A member whose name and value can be **read**. -/
structure Readable (tree : SourceTree) (edits : EditSet) (cs : List Char) (member : Node) : Prop
    where
  name : memberName member ∈ tree.root.preorder
  initial : ∃ initial, Initialized cs member initial
  rendered : ∀ value ∈ memberInitial? member, tree.rendered edits value = .ok (ownText cs value)

/-- **One more member**. -/
theorem Follows.step (h : Follows name done state) (hover : tree.Over d cs)
    (hmember : Readable tree edits cs member)
    (hstep : enumMember tree edits name state member = .ok state') :
    ∃ m, Declares cs member m ∧ Follows name (done ++ [m]) state' := by
  obtain ⟨initial, hinitial⟩ := hmember.initial
  rw [enumMember_eq] at hstep
  obtain ⟨word, hword, hstep⟩ := bind_eq_ok_iff.1 hstep
  obtain ⟨written, hwritten, hstep⟩ := bind_eq_ok_iff.1 hstep
  obtain rfl := pure_eq_ok_iff.1 hstep
  obtain ⟨hvalued, hreverse, hcounts⟩ :=
    (h.memberValue_cases hinitial hmember.rendered).1 _ hwritten
  refine ⟨(JsonString.quote true word, initial),
    ⟨⟨word, (memberKey_eq_ok_iff hover hmember.name).1 hword, rfl⟩, hinitial⟩, ?_, hcounts _, ?_⟩
  · rw [hreverse]
    exact h.assigned.append (m := (JsonString.quote true word, initial)) hvalued
  · intro last hlast
    obtain rfl : _ = last := by simpa using hlast
    rfl

/-- A member is taken as long as its **name** has a value. -/
theorem Follows.exists_step (h : Follows name done state) (hover : tree.Over d cs)
    (hmember : Readable tree edits cs member) (hword : ∃ word, memberWord cs member = .ok word)
    (hlength : done.length ≤ 10 ^ 4000) :
    ∃ state', enumMember tree edits name state member = .ok state' := by
  obtain ⟨initial, hinitial⟩ := hmember.initial
  obtain ⟨word, hword⟩ := hword
  obtain ⟨written, hwritten⟩ := (h.memberValue_cases hinitial hmember.rendered).2 hlength
  rw [enumMember_eq, (memberKey_eq_ok_iff hover hmember.name).2 hword, hwritten]
  exact ⟨_, rfl⟩

/-- **All members**. -/
theorem follows_foldlM {members : List Node} (hover : tree.Over d cs)
    (hmembers : ∀ m ∈ members, Readable tree edits cs m) (h : Follows name done state)
    (hrun : members.foldlM (enumMember tree edits name) state = .ok state') :
    ∃ ms, List.Forall₂ (Declares cs) members ms ∧ Follows name (done ++ ms) state' := by
  induction members generalizing done state with
  | nil =>
    obtain rfl := pure_eq_ok_iff.1 hrun
    exact ⟨[], .nil, by rwa [append_nil]⟩
  | cons member members ih =>
    obtain ⟨next, hstep, hrun⟩ := bind_eq_ok_iff.1 hrun
    obtain ⟨m, hm, hnext⟩ := h.step hover (hmembers member mem_cons_self) hstep
    obtain ⟨ms, hms, hfollows⟩ := ih (fun k hk ↦ hmembers k (mem_cons_of_mem _ hk)) hnext hrun
    exact ⟨m :: ms, .cons hm hms, by simpa using hfollows⟩

/-- All members are taken as long as their **names** have values. -/
theorem exists_foldlM {members : List Node} (hover : tree.Over d cs)
    (hmembers : ∀ m ∈ members, Readable tree edits cs m)
    (hwords : ∀ m ∈ members, ∃ word, memberWord cs m = .ok word) (h : Follows name done state)
    {l : Nat} (hl : l ≤ 10 ^ 4000) (hlength : done.length + members.length ≤ l) :
    ∃ state', members.foldlM (enumMember tree edits name) state = .ok state' := by
  induction members generalizing done state with
  | nil => exact ⟨state, rfl⟩
  | cons member members ih =>
    have hmember := hmembers member mem_cons_self
    obtain ⟨next, hstep⟩ := h.exists_step hover hmember (hwords member mem_cons_self)
      ((Nat.le_of_add_right_le hlength).trans hl)
    obtain ⟨m, -, hnext⟩ := h.step hover hmember hstep
    obtain ⟨state', hrun⟩ := ih (fun k hk ↦ hmembers k (mem_cons_of_mem _ hk))
      (fun k hk ↦ hwords k (mem_cons_of_mem _ hk)) hnext
      (by simpa [Nat.add_assoc, Nat.add_comm 1] using hlength)
    exact ⟨state', by rw [foldlM_cons, hstep]; exact hrun⟩

/-! ### The text of an enum -/

section Enum

variable {before after : List Node}

/-- What all patterns of enums have in common: the **body** comes last, after two others, and there
is no statement. -/
theorem enum_patterns : ∀ looks ∈ Node.patternsOf "enum_declaration", 3 ≤ looks.length ∧
    (∀ l ∈ looks.dropLast, l.kind ≠ "enum_body") ∧
      ∀ l ∈ looks, l.kind ≠ "expression_statement" := by
  decide

/-- The body of an enum comes **last** of its children, comments aside, after two others. -/
theorem exists_enumBody (hformed : tree.Formed d cs) (hn : n ∈ tree.root.preorder)
    (hkind : n.kind = "enum_declaration") :
    ∃ body first second front, n.child? .body = some body ∧
      n.children.filter (!·.isComment) = first :: second :: front ++ [body] := by
  have hshaped := hformed.shaped n hn
  obtain ⟨body, hbody, hbodyKind⟩ : ∃ m, n.child? .body = some m ∧ m.kind = "enum_body" :=
    hshaped.exists_of_looks (·.find? (·.role == some .body))
      (hshaped.child?_eq (by rw [hkind]; decide) .body) (by rw [hkind]; decide)
      (by rw [hkind]; decide)
  obtain ⟨hlength, hfront, -⟩ :=
    enum_patterns _ (hkind ▸ hshaped.follows (by rw [hkind]; decide))
  rw [Node.looks] at hlength
  rw [Node.looks, ← map_dropLast] at hfront
  have hmem : body ∈ n.children.filter (!·.isComment) := by
    refine mem_filter.2 ⟨mem_of_find?_eq_some hbody, ?_⟩
    simp [Node.isComment, hbodyKind, Node.commentKind]
  rcases eq_nil_or_concat (n.children.filter (!·.isComment)) with hnil | ⟨front, last, hsplit⟩
  · simp [hnil] at hmem
  · rw [concat_eq_append] at hsplit
    rw [hsplit] at hmem hlength hfront
    rw [dropLast_concat] at hfront
    obtain rfl : body = last := by
      rcases mem_append.1 hmem with hmem | hmem
      · exact absurd hbodyKind (hfront _ (mem_map_of_mem hmem))
      · exact mem_singleton.1 hmem
    rcases front with _ | ⟨first, _ | ⟨second, front⟩⟩
    · simp at hlength
    · simp at hlength
    · exact ⟨body, first, second, front, hbody, hsplit⟩

/-- Before the body of an enum starts, the enum has started, and so has what a constructor would put
in if the enum were its body. -/
theorem lt_start_enumBody (hformed : tree.Formed d cs) (hn : n ∈ reached tree)
    (hkind : n.kind = "enum_declaration") {body : Node} (hbody : n.child? .body = some body) :
    n.start < body.start ∧ propertyOffset n < body.start := by
  have hroot := mem_preorder_of_reached hn
  obtain ⟨_, first, second, front, hbody', hsplit⟩ := exists_enumBody hformed hroot hkind
  obtain rfl := Option.some.inj (hbody.symm.trans hbody')
  have hplaced := (placed_iff.1 (placed_of_reached hformed.toOver hn)).2.2
  have hall := hplaced.of_sublist (filter_sublist (p := (!·.isComment)))
  rw [hsplit] at hall
  have hbefore : second.stop ≤ body.start := (hall.2.2.2.2.of_mem (n := body) (by simp)).1
  have hnone : n.parts.find? callsSuper = none := by
    refine find?_eq_none.2 fun m hm ↦ ?_
    have hlook : m.look ∈ n.looks := by
      have hlook := mem_map_of_mem (f := Node.look) hm
      rw [parts_eq] at hlook
      exact mem_of_mem_filter hlook
    have hstatement := (enum_patterns _ (hkind ▸ (hformed.shaped n hroot).follows
      (by rw [hkind]; decide))).2.2 _ hlook
    simp [callsSuper, show m.kind ≠ "expression_statement" from hstatement]
  cases hchildren : n.children with
  | nil => simp [hchildren] at hsplit
  | cons head rest =>
    -- The second child comes after the first even if that is a comment.
    have hsecond : second ∈ rest := by
      rw [hchildren, filter_cons] at hsplit
      split at hsplit
      · have hrest := (List.cons.inj hsplit).2
        exact mem_of_mem_filter (p := (!·.isComment)) (by rw [hrest]; exact mem_cons_self)
      · exact mem_of_mem_filter (p := (!·.isComment)) (by rw [hsplit]; simp)
    have hwide : second.start < second.stop :=
      hformed.wide second (mem_preorderAll_trans (mem_preorderAll_of_reached hn)
        (mem_preorder_of_mem_children (hchildren ▸ mem_cons_of_mem _ hsecond)))
    rw [hchildren] at hplaced
    have hhead : head.stop ≤ second.start := (hplaced.2.2.of_mem hsecond).1
    have hheadWidth := hplaced.2.1.start_le_stop
    have hstart := hplaced.1
    refine ⟨by omega, ?_⟩
    rw [propertyOffset, hnone, hchildren]
    simpa using by omega

/-- A constructor assigns its properties **aside** of what lies below its body. -/
theorem propertyOffset_aside {body : Node} (hplaced : body.Placed cs)
    (hn : n ∈ preorderAll body.children) :
    propertyOffset body ≤ n.start ∨ n.stop ≤ propertyOffset body := by
  obtain ⟨c, hc, hn⟩ := mem_preorderAll.1 hn
  have hchildren := (placed_iff.1 hplaced).2.2
  have hinside := (hchildren.of_mem hc).2.1.of_mem_preorder hn
  have haside {s : Node} (hs : s ∈ body.children) : s.stop ≤ n.start ∨ n.stop ≤ s.stop := by
    have hwidth := (hchildren.of_mem hs).2.1.start_le_stop
    rcases apart_of_mem hchildren hs hc with rfl | hapart | hapart <;> omega
  unfold propertyOffset
  split
  · next statement hstatement =>
    exact haside (mem_of_mem_filter (mem_of_mem_filter
      (mem_of_find?_eq_some hstatement)))
  · cases hhead : body.children.head? with
    | none => simp [head?_eq_none_iff.1 hhead] at hc
    | some head => exact haside (mem_of_mem_head? hhead)

/-- Properties are assigned **outside** the body of an enum. -/
theorem assignedAt_of_enumBody (hformed : tree.Formed d cs)
    (hreached : reached tree = before ++ n :: after) (hkind : n.kind = "enum_declaration")
    {body : Node} (hbody : n.child? .body = some body) {offset : Nat} (hstart : body.start ≤ offset)
    (hstop : offset < body.stop) : assignedAt tree offset = [] := by
  have hover := hformed.toOver
  have hn : n ∈ reached tree := by simp [hreached]
  obtain ⟨hbefore, hself⟩ := lt_start_enumBody hformed hn hkind hbody
  have hinside := (placed_of_reached hover hn).of_mem_preorder
    (mem_preorder_of_mem_children (mem_of_find?_eq_some hbody))
  have hpassed : isPassedOver n = true := by rw [isPassedOver, hkind]; rfl
  rw [assignedAt, filter_eq_nil_iff.2, flatMap_nil]
  intro i hi
  obtain ⟨k, hk, hinsertion⟩ := mem_filterMap.1 hi
  have hplaced := placed_of_reached hover hk
  obtain ⟨o, ho, -, hlow, hhigh⟩ := bounds_of_propertyInsertion hplaced hinsertion
  suffices o < body.start ∨ body.stop ≤ o by
    simp only [beq_iff_eq]
    omega
  rw [hreached] at hk
  rcases mem_append.1 hk with hk | hk
  · rcases (precedes_of_reached hover hreached).1 k hk with hends | ⟨-, hbelow⟩
    · exact .inl (by omega)
    · -- The enum lies in the constructor: beside its body, in it, or it is the body.
      obtain ⟨block, hblock, hoffset⟩ := exists_of_propertyInsertion hinsertion
      obtain rfl : o = propertyOffset block := by exact_mod_cast ho.symm.trans hoffset
      obtain ⟨c, hc, hnc⟩ := mem_preorderAll.1 hbelow
      have hchildren := (placed_iff.1 hplaced).2.2
      have hblock' := mem_of_find?_eq_some hblock
      have hinc := (hchildren.of_mem hc).2.1.of_mem_preorder hnc
      have hblockBounds := bounds_of_propertyOffset (hchildren.of_mem hblock').2.1
      rcases apart_of_mem hchildren hblock' hc with rfl | hapart | hapart
      · rcases mem_preorder.1 hnc with rfl | hnc
        · exact .inl hself
        · have := propertyOffset_aside (hchildren.of_mem hblock').2.1 hnc
          omega
      · omega
      · omega
  · rcases mem_cons.1 hk with rfl | hk
    · simp [propertyInsertion, hkind] at hinsertion
    · have := stop_le_start_of_isPassedOver hover hreached hpassed hk
      exact .inr (by omega)

/-- The edits that only **put in** what constructors assign. -/
def assigningEdits (tree : SourceTree) : EditSet where
  insertions := (reached tree).filterMap (propertyInsertion tree)

theorem editsFor_assigningEdits (tree : SourceTree) :
    EditsFor tree (reached tree) (assigningEdits tree) :=
  ⟨fun _ hr ↦ absurd hr not_mem_nil, rfl, rfl⟩

/-- What lies in the body of an enum is written **as it stands**. -/
theorem rendered_of_enumBody (hformed : tree.Formed d cs)
    (hreached : reached tree = before ++ n :: after) (hkind : n.kind = "enum_declaration")
    {body : Node} (hbody : n.child? .body = some body) (hm : m ∈ body.preorder) :
    tree.rendered (assigningEdits tree) m = .ok (ownText cs m) := by
  have hover := hformed.toOver
  have hn : n ∈ reached tree := by simp [hreached]
  have hedits := editsFor_assigningEdits tree
  have hbodyBelow := mem_preorder_of_mem_children (mem_of_find?_eq_some hbody)
  have hbodyRoot := mem_preorder_trans (mem_preorder_of_reached hn) hbodyBelow
  have hinside := (hover.placed.of_mem_preorder hbodyRoot).2.1.of_mem_preorder hm
  rw [rendered_of_unreplaced hover (hedits.fits hover (List.Subset.refl _))
    (textAt_eq_assignedAt hedits.insertions hedits.statements)
    (mem_preorder_trans hbodyRoot hm) (fun _ _ ↦ rfl), ownText,
    ← spliced_nil_eq_scriptText]
  refine congrArg Except.ok (spliced_congr fun offset hstart hstop ↦ ?_)
  exact assignedAt_of_enumBody hformed hreached hkind hbody (hinside.1.trans hstart)
    (hstop.trans_le hinside.2.2)

/-- The members of an enum can be **read**, whatever is edited outside of it. -/
theorem readable_of_enumMembers (hformed : tree.Formed d cs)
    (hreached : reached tree = before ++ n :: after) (hkind : n.kind = "enum_declaration")
    (hmember : member ∈ enumMembers n) (hinitial : ∃ initial, Initialized cs member initial) :
    Readable tree (assigningEdits tree) cs member := by
  cases hbody : n.child? .body with
  | none => simp [enumMembers, hbody] at hmember
  | some body =>
    have hmember : member ∈ body.preorder := by
      simp only [enumMembers, hbody, Option.map_some] at hmember
      exact mem_preorder_of_mem_children
        (mem_of_mem_filter (mem_of_mem_filter hmember))
    have hroot : body ∈ tree.root.preorder := mem_preorder_trans
      (mem_preorder_of_reached (by simp [hreached]))
      (mem_preorder_of_mem_children (mem_of_find?_eq_some hbody))
    refine ⟨mem_preorder_trans hroot (mem_preorder_trans hmember ?_), hinitial,
      fun value hvalue ↦ rendered_of_enumBody hformed hreached hkind hbody
        (mem_preorder_trans hmember ?_)⟩
    · unfold memberName
      split
      · cases hname : member.child? .name with
        | none => exact member.mem_preorder_self
        | some key => exact mem_preorder_of_mem_children (mem_of_find?_eq_some hname)
      · exact member.mem_preorder_self
    · unfold memberInitial? at hvalue
      split at hvalue
      · exact mem_preorder_of_mem_children (mem_of_find?_eq_some hvalue)
      · exact absurd hvalue (by simp)

/-- An enum is **compiled** by the loop over its members, and nothing that is edited outside of it
matters. -/
theorem compileEnum_eq_ok_iff (hformed : tree.Formed d cs)
    (hreached : reached tree = before ++ n :: after) (hkind : n.kind = "enum_declaration")
    (hedits : EditsFor tree before edits) :
    compileEnum tree edits n = .ok text ↔ ∃ state,
      text = enumText (enumName cs n) state.assignments ∧
        (enumMembers n).foldlM (enumMember tree (assigningEdits tree) (enumName cs n)) {}
          = .ok state := by
  have hover := hformed.toOver
  have hroot : n ∈ tree.root.preorder := mem_preorder_of_reached (by simp [hreached])
  have hname : (n.child? .name).getD n ∈ tree.root.preorder := by
    cases hname : n.child? .name with
    | none => exact hroot
    | some key =>
      exact mem_preorder_of_child hroot (mem_of_find?_eq_some hname)
  rw [compileEnum_eq hover hreached hkind hedits (editsFor_assigningEdits tree), compileEnum,
    nodeText_eq_ownText hover hname]
  change ((enumMembers n).foldlM (enumMember tree (assigningEdits tree) (enumName cs n)) {}
    >>= fun state ↦ pure (enumText (enumName cs n) state.assignments)) = .ok text ↔ _
  rw [bind_eq_ok_iff]
  constructor
  · rintro ⟨state, hstate, htext⟩
    exact ⟨state, (pure_eq_ok_iff.1 htext).symm, hstate⟩
  · rintro ⟨state, rfl, hstate⟩
    exact ⟨state, hstate, rfl⟩

/-! ### Where an enum is put -/

/-- What is visited after an enum leaves its text **as it is**. -/
theorem replacement?_of_after (hover : tree.Over d cs)
    (hreached : reached tree = before ++ n :: after) (hpassed : isPassedOver n = true)
    {ks : List Node} (hks : ks ⊆ after)
    (hrun : ks.foldlM (Node.effect fun k w ↦ visit tree path k w) w = .ok w') :
    w'.edits.replacement? n = w.edits.replacement? n := by
  induction ks generalizing w with
  | nil => rw [(pure_eq_ok_iff.1 hrun : w = w')]
  | cons k ks ih =>
    obtain ⟨w₁, hstep, hrun⟩ := bind_eq_ok_iff.1 hrun
    rw [ih (fun q hq ↦ hks (mem_cons_of_mem _ hq)) hrun]
    obtain ⟨⟨next, w₂⟩, hvisit, rfl⟩ := map_eq_ok_iff.1 hstep
    have hvisits : Visits tree {} k w w₂ next := visits_visit hvisit
    obtain ⟨changes, hparts, -, rfl⟩ := hvisits.changes
    refine EditSet.replacement?_replaceAll fun c hc hkey ↦ ?_
    have hk : k ∈ after := hks mem_cons_self
    have hpart : c.1 ∈ typedParts k := by
      have hc := mem_map_of_mem (f := Prod.fst) hc
      rw [hparts] at hc
      split at hc
      · simp at hc
      · exact hc
    have hkr : k ∈ reached tree := by simp [hreached, hk]
    have hinside := (placed_of_reached hover hkr).of_mem_preorder (mem_preorder_of_typedParts hpart)
    have hstart := stop_le_start_of_isPassedOver hover hreached hpassed hk
    have hwide := hover.wide n (mem_preorderAll_of_reached (by simp [hreached]))
    simp only [Node.key, NodeKey.mk.injEq] at hkey
    omega

theorem visit_of_enum (hkind : n.kind = "enum_declaration") :
    visit tree path n w = (compileEnum tree w.edits n).map fun text ↦
      (.skip, { w with edits := w.edits.replace n text }) := by
  rw [visit, hkind]
  cases compileEnum tree w.edits n <;> rfl

/-- An enum is replaced by its **compiled text**. -/
theorem replacement?_of_enum {elide : Bool} (hover : tree.Over d cs)
    (hreached : reached tree = before ++ n :: after) (hkind : n.kind = "enum_declaration")
    (hplain : plainEdits tree names elide path = .ok edits') :
    ∃ edits, EditsFor tree before edits ∧ ∃ text, compileEnum tree edits n = .ok text ∧
      edits'.replacement? n = some text := by
  have hpassed : isPassedOver n = true := by rw [isPassedOver, hkind]; rfl
  have hother : elementKinds.contains n.kind = false := by rw [hkind]; decide
  have himport : n.kind ≠ "import_statement" ∧ n.kind ≠ "import_clause" := by
    rw [hkind]
    decide
  rw [plainEdits_eq] at hplain
  obtain ⟨w, hcollect, hplain'⟩ := bind_eq_ok_iff.1 hplain
  obtain ⟨edits₁, hcompile, -⟩ := bind_eq_ok_iff.1 hplain'
  rw [← plainEdits_eq] at hplain
  have hcollected : Collected tree names (reached tree) w := collected_collect hcollect
  rw [replacement?_plainEdits_of_kind hcollect hcompile hplain himport,
    hcollected.replacement?_eq hcompile hother]
  rw [collect_eq, hreached, foldlM_append] at hcollect
  obtain ⟨w₁, hbefore, hcollect⟩ := bind_eq_ok_iff.1 hcollect
  obtain ⟨w₂, hstep, hafter⟩ := bind_eq_ok_iff.1 hcollect
  obtain ⟨⟨next, w₃⟩, hvisit, rfl⟩ := map_eq_ok_iff.1 hstep
  obtain ⟨text, htext, hwork⟩ := map_eq_ok_iff.1 ((visit_of_enum hkind).symm.trans hvisit)
  obtain ⟨-, rfl⟩ := Prod.mk.inj hwork
  have hcollected₁ : Collected tree names before w₁ := collected_foldlM hbefore
  refine ⟨w₁.edits, hcollected₁.editsFor, text, htext, ?_⟩
  rw [replacement?_of_after hover hreached hpassed (List.Subset.refl _) hafter,
    EditSet.replacement?_replace, if_pos rfl]

/-- **Enum numbering**. In a script that is read without faults, take an enum whose members have no
value, an integer literal below 10^4000 or a string, and the edits when the walk comes to it. If it
is compiled, there is one assignment for each member, in order, of the value that the members before
it give. It is compiled exactly if each member's name has a value, as long as the members can be
counted with 4000 digits. And wherever the script is made plain, the enum is written so. -/
theorem compileEnum_numbered (hread : SourceTree.readStrict d cs = .ok tree)
    (hreached : reached tree = before ++ n :: after) (hkind : n.kind = "enum_declaration")
    (hedits : EditsFor tree before edits)
    (hinitials : ∀ m ∈ enumMembers n, ∃ initial, Initialized cs m initial) :
    (∀ text, compileEnum tree edits n = .ok text → ∃ ms assignments,
        List.Forall₂ (Declares cs) (enumMembers n) ms ∧
        Assigned (enumName cs n) ms assignments ∧ text = enumText (enumName cs n) assignments) ∧
      ((enumMembers n).length ≤ 10 ^ 4000 → ((∃ text, compileEnum tree edits n = .ok text) ↔
        ∀ m ∈ enumMembers n, ∃ word, memberWord cs m = .ok word)) ∧
      ∀ names elide path edits', plainEdits tree names elide path = .ok edits' →
        ∃ text, compileEnum tree edits n = .ok text ∧
          tree.rendered edits' n = .ok (assignedAt tree n.start ++ text) := by
  have hformed : tree.Formed d cs := eq_read_of_readStrict hread ▸ formed_read d cs
  have hover := hformed.toOver
  have hmembers (m) (hm : m ∈ enumMembers n) : Readable tree (assigningEdits tree) cs m :=
    readable_of_enumMembers hformed hreached hkind hm (hinitials m hm)
  have hwritten (text : Text) (htext : compileEnum tree edits n = .ok text) :
      ∃ ms assignments, List.Forall₂ (Declares cs) (enumMembers n) ms ∧
        Assigned (enumName cs n) ms assignments ∧
        text = enumText (enumName cs n) assignments := by
    obtain ⟨state, rfl, hstate⟩ :=
      (compileEnum_eq_ok_iff hformed hreached hkind hedits).1 htext
    obtain ⟨ms, hms, hfollows⟩ := follows_foldlM hover hmembers (follows_nil _) hstate
    exact ⟨ms, state.assignments, hms, hfollows.assigned, rfl⟩
  refine ⟨hwritten, fun hlength ↦ ⟨?_, fun hwords ↦ ?_⟩, fun names elide path edits' hplain ↦ ?_⟩
  · rintro ⟨text, htext⟩
    obtain ⟨ms, -, hms, -⟩ := hwritten text htext
    exact ((List.forall₂_and_left _ _).1
      (hms.imp fun _ _ hm ↦ ⟨hm.name.imp fun _ ↦ And.left, hm⟩)).1
  · obtain ⟨state, hstate⟩ := exists_foldlM hover hmembers hwords (follows_nil (enumName cs n))
      hlength (by simp)
    exact ⟨_, (compileEnum_eq_ok_iff hformed hreached hkind hedits).2 ⟨state, rfl, hstate⟩⟩
  · obtain ⟨edits₁, hedits₁, text, htext, hreplaced⟩ :=
      replacement?_of_enum hover hreached hkind hplain
    have hsame := editsFor_assigningEdits tree
    refine ⟨text, ?_, ?_⟩
    · rw [compileEnum_eq hover hreached hkind hedits hsame,
        ← compileEnum_eq hover hreached hkind hedits₁ hsame, htext]
    · obtain ⟨used, edits₂, -, hall⟩ := exists_allEdits hover hplain
      exact rendered_of_some hover (hall.fits hover)
        (textAt_eq_assignedAt hall.insertions hall.statements)
        (mem_preorder_of_reached (by simp [hreached])) hreplaced

/-- An enum with members of each sort: bare ones first, after a literal that no double is equal to,
after one in another base and after a string. -/
def numberedEnum : List Char :=
  ("enum E \x7b A, B, C = 9_007_199_254_740_993, D, 'e' = 0xFf, F, G = 'x', H \x7d").toList

/-- The values that are written for the members of `numberedEnum`. -/
def numberedValues : List (Option (String × List Char)) :=
  [none, none, some ("number", "9_007_199_254_740_993".toList), none,
    some ("number", "0xFf".toList), none, some ("string", "'x'".toList), none]

/-- At an enum with members of each sort. -/
theorem compileEnum_numbered_sorts :
    plain {} (Text.ofChars numberedEnum) (some typedPath)
      = .ok (("var E; (function (E) \x7b E[E[\"A\"] = 0] = \"A\"; E[E[\"B\"] = 1] = \"B\"; "
        ++ "E[E[\"C\"] = 9_007_199_254_740_993] = \"C\"; "
        ++ "E[E[\"D\"] = 9007199254740994] = \"D\"; "
        ++ "E[E[\"e\"] = 0xFf] = \"e\"; E[E[\"F\"] = 256] = \"F\"; E[\"G\"] = 'x'; "
        ++ "E[E[\"H\"] = E[\"G\"] + 1] = \"H\"; \x7d)(E || (E = \x7b\x7d));" : String) : Text) ∧
    ∃ n, reached (SourceTree.read .typed numberedEnum) = [n] ∧ n.kind = "enum_declaration" ∧
      (∀ m ∈ enumMembers n, ∃ initial, Initialized numberedEnum m initial) ∧
      ∃ text, compileEnum (SourceTree.read .typed numberedEnum) {} n = .ok text ∧
        ∃ ms assignments, List.Forall₂ (Declares numberedEnum) (enumMembers n) ms ∧
          Assigned (enumName numberedEnum n) ms assignments ∧
          text = enumText (enumName numberedEnum n) assignments := by
  refine ⟨?_, ?_⟩
  · rw [plain_eq_map (by decide +kernel)]
    exact eq_ok_of_succeedsWith (by decide +kernel)
  · obtain ⟨hfaults, hkinds, hvalues, hwords⟩ :
        ((SourceTree.read .typed numberedEnum).root.firstFault?).isNone = true ∧
        (reached (SourceTree.read .typed numberedEnum)).map (·.kind) = ["enum_declaration"] ∧
        ((reached (SourceTree.read .typed numberedEnum)).flatMap enumMembers).map
          (fun m ↦ (memberInitial? m).map fun v ↦ (v.kind, between numberedEnum v.start v.stop))
          = numberedValues ∧
        (((reached (SourceTree.read .typed numberedEnum)).flatMap enumMembers).all fun m ↦
          succeedsWith (fun _ ↦ true) (memberWord numberedEnum m)) = true := by decide +kernel
    obtain ⟨n, rest, hreached, hkind, hrest⟩ := List.map_eq_cons_iff.1 hkinds
    obtain rfl := List.map_eq_nil_iff.1 hrest
    rw [hreached, List.flatMap_singleton] at hvalues hwords
    have hdecimal : Number.IntegerLiteral "9_007_199_254_740_993".toList
        (Number.spelled 10 "9007199254740993".toList) :=
      .decimal (by decide) (by decide) (by decide)
    have hmarked : Number.IntegerLiteral "0xFf".toList (Number.spelled 16 ['F', 'f']) :=
      @Number.IntegerLiteral.marked 'x' 16 _ _ (by decide) rfl (by decide)
    have hpow : (10 : Nat) ^ 16 ≤ 10 ^ 4000 := pow_le_pow_right₀ (by decide) (by decide)
    have hinitials (m) (hm : m ∈ enumMembers n) :
        ∃ initial, Initialized numberedEnum m initial := by
      have hvalue := List.mem_map_of_mem (f := fun m ↦ (memberInitial? m).map fun v ↦
        (v.kind, between numberedEnum v.start v.stop)) hm
      rw [hvalues] at hvalue
      cases hinitial : memberInitial? m with
      | none => exact ⟨_, .bare hinitial⟩
      | some value =>
        simp only [hinitial, Option.map_some, numberedValues, List.mem_cons, reduceCtorEq, false_or,
          Option.some.injEq, Prod.mk.injEq, List.not_mem_nil, or_false] at hvalue
        rcases hvalue with ⟨hkind, htext⟩ | ⟨hkind, htext⟩ | ⟨hkind, -⟩
        · exact ⟨_, .literal hinitial hkind (htext ▸ hdecimal)
            (lt_of_lt_of_le (by decide) hpow)⟩
        · exact ⟨_, .literal hinitial hkind (htext ▸ hmarked)
            (lt_of_lt_of_le (by decide) hpow)⟩
        · exact ⟨_, .string hinitial (.inl hkind)⟩
    have hedits : EditsFor (SourceTree.read .typed numberedEnum) [] {} :=
      ⟨fun _ hr ↦ absurd hr List.not_mem_nil, rfl, rfl⟩
    obtain ⟨hnumbered, hcompiled, -⟩ :=
      compileEnum_numbered (readStrict_of_firstFault? hfaults)
        (hreached.trans (List.nil_append _).symm) hkind hedits hinitials
    have hlength : (enumMembers n).length ≤ 10 ^ 4000 := by
      have hlength := congrArg List.length hvalues
      rw [List.length_map] at hlength
      exact (hlength.trans_le (by decide)).trans hpow
    obtain ⟨text, htext⟩ := (hcompiled hlength).2 fun m hm ↦ by
      obtain ⟨word, hword, -⟩ := exists_of_succeedsWith (List.all_eq_true.1 hwords m hm)
      exact ⟨word, hword⟩
    exact ⟨n, hreached, hkind, hinitials, text, htext, hnumbered text htext⟩

end Enum

end ScriptTree.Transform
