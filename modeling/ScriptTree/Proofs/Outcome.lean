import Mathlib

/-!
# Steps that may fail

A sequence of steps succeeds exactly when each step succeeds. The lemmas here take such sequences
apart, so that later proofs never look at how outcomes are passed on.

## Main results

* `bind_eq_ok_iff`, `map_eq_ok_iff`: two steps.
* `mapM_eq_ok`, `foldlM_eq_ok`, `foldlM_invariant`: a step for each item of a list.
* `lookup_of_mem`, `mem_of_lookup`: looking up.
-/

namespace ScriptTree

open List
variable {α β ε : Type}

/-- **Two steps** succeed when the first succeeds and the second goes on from its result. -/
theorem bind_eq_ok_iff {x : Except ε α} {f : α → Except ε β} {b : β} :
    (x >>= f) = .ok b ↔ ∃ a, x = .ok a ∧ f a = .ok b := by
  cases x <;> simp [bind, Except.bind]

/-- A step whose result is **changed** afterwards. -/
theorem map_eq_ok_iff {x : Except ε α} {f : α → β} {b : β} :
    x.map f = .ok b ↔ ∃ a, x = .ok a ∧ f a = b := by
  cases x <;> simp [Except.map]

@[simp] theorem pure_eq_ok_iff {a b : α} : (pure a : Except ε α) = .ok b ↔ a = b := by
  simp [pure, Except.pure]

@[simp] theorem throw_ne_ok {e : ε} {a : α} : (throw e : Except ε α) ≠ .ok a := by
  simp [throw, throwThe]

/-- A step that never fails on the items of a list gives the list of its results. -/
theorem mapM_eq_ok {f : α → Except ε β} {g : α → β} {l : List α}
    (h : ∀ a ∈ l, f a = .ok (g a)) : l.mapM f = .ok (l.map g) := by
  induction l with
  | nil => rfl
  | cons a l ih =>
    rw [mapM_cons, h a mem_cons_self, ih fun b hb ↦ h b (mem_cons_of_mem _ hb)]
    rfl

/-- A step that never fails, made for each item of a list in turn. -/
theorem foldlM_eq_ok {f : β → α → Except ε β} {g : β → α → β} {l : List α}
    (h : ∀ b, ∀ a ∈ l, f b a = .ok (g b a)) (b : β) : l.foldlM f b = .ok (l.foldl g b) := by
  induction l generalizing b with
  | nil => rfl
  | cons a l ih =>
    rw [foldlM_cons, h b a mem_cons_self]
    exact ih (fun b c hc ↦ h b c (mem_cons_of_mem _ hc)) _

theorem foldlM_congr {f g : β → α → Except ε β} {l : List α}
    (h : ∀ b, ∀ a ∈ l, f b a = g b a) (b : β) : l.foldlM f b = l.foldlM g b := by
  induction l generalizing b with
  | nil => rfl
  | cons a l ih =>
    rw [foldlM_cons, h b a mem_cons_self]
    exact bind_congr fun b ↦ ih (fun b c hc ↦ h b c (mem_cons_of_mem _ hc)) b

theorem mapM_congr {f g : α → Except ε β} {l : List α} (h : ∀ a ∈ l, f a = g a) :
    l.mapM f = l.mapM g := by
  induction l with
  | nil => rfl
  | cons a l ih =>
    rw [mapM_cons, mapM_cons, h a mem_cons_self,
      ih fun b hb ↦ h b (mem_cons_of_mem _ hb)]

/-- What every step over the items of a list keeps, **all steps** keep. The invariant speaks of the
items that are done. -/
theorem foldlM_invariant {f : β → α → Except ε β} {P : List α → β → Prop}
    (hstep : ∀ done a b b', P done b → f b a = .ok b' → P (done ++ [a]) b') :
    ∀ (todo done : List α) {b b' : β}, P done b → todo.foldlM f b = .ok b' → P (done ++ todo) b'
  | [], done, b, b', hb, h => by
    rw [append_nil]
    simp only [foldlM_nil, pure_eq_ok_iff] at h
    exact h ▸ hb
  | a :: todo, done, b, b', hb, h => by
    rw [foldlM_cons, bind_eq_ok_iff] at h
    obtain ⟨c, hc, hrest⟩ := h
    have := foldlM_invariant hstep todo (done ++ [a]) (hstep done a b c hb hc) hrest
    rwa [append_assoc] at this

/-- Whether a step succeeds with a result that **passes** a test. -/
def succeedsWith (p : α → Bool) : Except ε α → Bool
  | .ok a => p a
  | .error _ => false

theorem exists_of_succeedsWith {p : α → Bool} {x : Except ε α} (h : succeedsWith p x = true) :
    ∃ a, x = .ok a ∧ p a = true := by
  cases x with
  | error e => simp [succeedsWith] at h
  | ok a => exact ⟨a, rfl, h⟩

theorem eq_ok_of_succeedsWith [DecidableEq α] {a : α} {x : Except ε α}
    (h : succeedsWith (· = a) x = true) : x = .ok a := by
  obtain ⟨b, hx, hb⟩ := exists_of_succeedsWith h
  exact of_decide_eq_true hb ▸ hx

/-- In a list without repeated keys every pair is **looked up**. -/
theorem lookup_of_mem [BEq α] [LawfulBEq α] {l : List (α × β)} {a : α} {b : β}
    (hnodup : (l.map (·.1)).Nodup) (h : (a, b) ∈ l) : l.lookup a = some b := by
  induction l with
  | nil => simp at h
  | cons p l ih =>
    obtain ⟨c, d⟩ := p
    rw [map_cons, nodup_cons] at hnodup
    rcases mem_cons.1 h with heq | hmem
    · cases heq
      simp
    · have hne : (a == c) = false := by
        rw [beq_eq_false_iff_ne]
        rintro rfl
        exact hnodup.1 (mem_map.2 ⟨_, hmem, rfl⟩)
      rw [lookup_cons, hne]
      exact ih hnodup.2 hmem

/-- What a **look-up** finds is in the list. -/
theorem mem_of_lookup [BEq α] [LawfulBEq α] {l : List (α × β)} {a : α} {b : β}
    (h : l.lookup a = some b) : (a, b) ∈ l := by
  obtain ⟨before, after, rfl, -⟩ := lookup_eq_some_iff.1 h
  simp

end ScriptTree
