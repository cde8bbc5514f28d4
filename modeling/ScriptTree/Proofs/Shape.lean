import ScriptTree.Grammar.Program
import ScriptTree.Proofs.Placement

/-!
# The make-up of nodes

Of the nodes of a few kinds more is known than where they lie: a name stands on one line, and the
children of an enum, of an import clause or of what an import clause holds are known **one by one**.
What a child looks like to its parent is its role, whether it stands for a construct, and its kind;
the lists that occur are given as a table, and each fact about such a node is read off it.

## Main results

* `Node.Shaped.child?_eq`, `Node.parts_eq`: roles and parts are read off a pattern.
* `Node.Shaped.exists_of_looks`: what all patterns have, a node has.
-/

namespace ScriptTree

open List
open Utf8 (size)

/-- Characters that **stand at** a byte of a text. -/
def StandsAt (cs : List Char) (offset : Nat) (piece : List Char) : Prop :=
  ∃ before after, cs = before ++ piece ++ after ∧ offset = size before

namespace Node

/-- How a child **looks** to its parent: its role there, whether it stands for a construct, and its
kind. -/
structure Look where
  role : Option Role
  named : Bool
  kind : String
  deriving DecidableEq

namespace Look

/-- The look of a token. -/
def token (kind : String) : Look := ⟨none, false, kind⟩

/-- The look of a construct without a role. -/
def part (kind : String) : Look := ⟨none, true, kind⟩

/-- The look of a construct in a role. -/
def inRole (l : Look) (r : Role) : Look := { l with role := some r }

end Look

/-- The look of a node. -/
def look (n : Node) : Look := ⟨n.role, n.named, n.kind⟩

/-- The looks of the **children** of a node, comments aside. -/
def looks (n : Node) : List Look := (n.children.filter (!·.isComment)).map look

/-- The kind of names. -/
def nameKind : String := "identifier"

open Look in
/-- What is bound in an item of a list of imports: a name, or a name under another. -/
def boundPatterns : List (List Look) :=
  [[(part "identifier").inRole .name, token "as", (part "identifier").inRole .alias],
    [(part "string").inRole .name, token "as", (part "identifier").inRole .alias],
    [(part "identifier").inRole .name]]

open Look in
/-- The **patterns** that the children of some kinds of nodes follow. -/
def patterns : List (String × List (List Look)) :=
  [("enum_declaration",
      [[token "const", token "enum", (part "identifier").inRole .name,
          (part "enum_body").inRole .body],
        [token "enum", (part "identifier").inRole .name, (part "enum_body").inRole .body]]),
    ("import_clause",
      [[part "namespace_import"], [part "named_imports"], [part "identifier"],
        [part "identifier", token ",", part "namespace_import"],
        [part "identifier", token ",", part "named_imports"]]),
    ("namespace_import", [[token "*", token "as", part "identifier"]]),
    ("import_specifier",
      boundPatterns ++ boundPatterns.map (token "type" :: ·)
        ++ boundPatterns.map (token "typeof" :: ·)),
    ("import_require_clause",
      [[part "identifier", token "=", token "require", token "(", (part "string").inRole .source,
        token ")"]]),
    ("import_alias",
      [[token "import", part "identifier", token "=", part "identifier"],
        [token "import", part "identifier", token "=", part "identifier", token ";"],
        [token "import", part "identifier", token "=", part "nested_identifier"],
        [token "import", part "identifier", token "=", part "nested_identifier", token ";"]])]

/-- The kinds of nodes that follow a pattern. -/
def patternKinds : List String := patterns.map (·.1)

/-- The patterns for a kind. -/
def patternsOf (kind : String) : List (List Look) := (patterns.lookup kind).getD []

/-- The kinds of nodes that are made up in a **known** way. -/
def shapedKinds : List String := nameKind :: patternKinds

/-- A node whose text stands on **one line**. -/
def IsLine (cs : List Char) (n : Node) : Prop :=
  ∃ piece, StandsAt cs n.start piece ∧ n.stop = n.start + size piece ∧ '\n' ∉ piece

/-- A node that is **made up** as its kind says. -/
structure Shaped (cs : List Char) (n : Node) : Prop where
  line : n.kind = nameKind → n.IsLine cs
  follows : n.kind ∈ patternKinds → n.looks ∈ patternsOf n.kind
  comments : n.kind ∈ shapedKinds → ∀ m ∈ n.children, m.isComment = true → m.role = none

variable {cs : List Char} {n : Node}

theorem shaped_of_not_mem (h : n.kind ∉ shapedKinds) : n.Shaped cs := by
  refine ⟨fun hkind ↦ ?_, fun hkind ↦ ?_, fun hkind ↦ absurd hkind h⟩
  · exact absurd (by rw [hkind]; exact mem_cons_self) h
  · exact absurd (mem_cons_of_mem _ hkind) h

theorem Shaped.inRole (h : n.Shaped cs) (r : Role) : (n.inRole r).Shaped cs :=
  ⟨h.line, h.follows, h.comments⟩

/-! ### Reading a pattern -/

/-- The first child with a **role** is what the pattern has in that role. -/
theorem Shaped.child?_eq (h : n.Shaped cs) (hkind : n.kind ∈ shapedKinds) (r : Role) :
    (n.child? r).map look = n.looks.find? (·.role == some r) := by
  have hcomments := h.comments hkind
  rw [child?, looks, find?_map, find?_filter]
  congr 1
  revert hcomments
  generalize n.children = ms
  intro hcomments
  induction ms with
  | nil => rfl
  | cons m ms ih =>
    have hm : (m.role == some r)
        = decide ((!m.isComment) = true ∧ (m.look.role == some r) = true) := by
      cases hcomment : m.isComment with
      | false => rw [Bool.eq_iff_iff]; simp [look]
      | true => simp [hcomments m mem_cons_self hcomment]
    rw [find?_cons, ih fun k hk ↦ hcomments k (mem_cons_of_mem _ hk), hm]
    rfl

/-- The **parts** of a node are the constructs of its pattern. -/
theorem parts_eq (n : Node) : n.parts.map look = n.looks.filter (·.named) := by
  rw [parts, namedChildren, looks, filter_map, filter_filter, filter_filter]
  refine congrArg _ (filter_congr fun m _ ↦ ?_)
  simp [look, Bool.and_comm]

theorem part?_eq (n : Node) {kind : String} (hkind : kind ≠ commentKind) :
    n.part? kind = n.parts.find? (·.kind == kind) := by
  rw [parts, find?_filter]
  refine congrArg (n.namedChildren.find? ·) (funext fun m ↦ ?_)
  rw [Bool.eq_iff_iff, decide_eq_true_eq, isComment, Bool.not_eq_true', beq_iff_eq,
    beq_eq_false_iff_ne]
  exact ⟨fun hm ↦ ⟨hm ▸ hkind, hm⟩, And.right⟩

theorem map_look_part? (n : Node) {kind : String} (hkind : kind ≠ commentKind) :
    (n.part? kind).map look = (n.looks.filter (·.named)).find? (·.kind == kind) := by
  rw [part?_eq n hkind, ← parts_eq, find?_map]
  rfl

theorem head?_parts_eq (n : Node) : n.parts.head?.map look = (n.looks.filter (·.named)).head? := by
  rw [← parts_eq, head?_map]

/-- What **all patterns** have somewhere, a node that follows one has there. -/
theorem Shaped.exists_of_looks (h : n.Shaped cs) (found : List Look → Option Look)
    {child : Option Node} {kind : String} (hchild : child.map look = found n.looks)
    (hkind : n.kind ∈ patternKinds)
    (hpatterns : ∀ looks ∈ patternsOf n.kind, (found looks).map (·.kind) = some kind) :
    ∃ m, child = some m ∧ m.kind = kind := by
  have hlook := hpatterns _ (h.follows hkind)
  rw [← hchild, Option.map_map] at hlook
  exact Option.map_eq_some_iff.1 hlook

end Node

end ScriptTree
