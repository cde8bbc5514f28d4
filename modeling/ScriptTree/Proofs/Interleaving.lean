import Mathlib.Data.List.Basic
import Mathlib.Tactic.Common

/-!
# Tasks that run side by side

A **task** takes one step after the other on a state that it shares with others. Between two of its
steps the others may take any number of theirs, so what a task has seen need not be so any more when
it goes on. `Interleaved` describes all ways in which tasks can be run to their ends.

What can be said of a task in company is said by two relations on states: what it **relies** on,
that others do no more than this between its steps, and what it **guarantees**, that its own steps
do no more than that. `Ensures` is a judgement about one task alone. If every task ensures its own
condition, and the guarantee of each is within what the others rely on, then all conditions hold in
the end, in whatever order the steps were taken (`Interleaved.ensures`).

## Main results

* `interleaved_runAll`: running tasks one after the other is one way of running them side by side.
* `Interleaved.ensures`: what tasks ensure side by side.
-/

namespace ScriptTree

open List

/-- A **task** on a state: it is done, or its next step changes the state, and how it goes on
depends on the state that it has seen. -/
inductive Steps (σ α : Type) where
  | done (result : α)
  | next (update : σ → σ) (rest : σ → Steps σ α)

namespace Steps

variable {σ α β : Type}

/-- A task that goes on with the result of another. -/
def bind : Steps σ α → (α → Steps σ β) → Steps σ β
  | done a, f => f a
  | next update rest, f => next update fun s ↦ (rest s).bind f

instance : Monad (Steps σ) where
  pure := done
  bind := bind

/-- A task of **one step**, which no other task can break into. -/
def atomically (f : σ → α × σ) : Steps σ α := next (fun s ↦ (f s).2) fun s ↦ done (f s).1

/-- Runs a task **alone**. -/
def run : Steps σ α → σ → α × σ
  | done a, s => (a, s)
  | next update rest, s => (rest s).run (update s)

@[simp] theorem run_pure (a : α) (s : σ) : (pure a : Steps σ α).run s = (a, s) := rfl

@[simp] theorem run_atomically (f : σ → α × σ) (s : σ) : (atomically f).run s = f s := rfl

@[simp] theorem run_bind (x : Steps σ α) (f : α → Steps σ β) (s : σ) :
    (x >>= f).run s = (f (x.run s).1).run (x.run s).2 := by
  show (x.bind f).run s = _
  induction x generalizing s with
  | done a => rfl
  | next update rest ih => exact ih s (update s)

end Steps

variable {σ α : Type}

/-- Runs tasks **one after the other**; their results in order, and the state in the end. -/
def runAll : List (Steps σ α) → σ → List α × σ
  | [], s => ([], s)
  | t :: tasks, s =>
    let (results, final) := runAll tasks (t.run s).2
    ((t.run s).1 :: results, final)

/-- Tasks that are run **side by side** from a state, their results in order and the state in the
end: as long as some task is not done, any such task takes its next step. -/
inductive Interleaved : List (Steps σ α) → σ → List α → σ → Prop
  | done {tasks : List (Steps σ α)} {results : List α} {s : σ} (h : tasks = results.map .done) :
      Interleaved tasks s results s
  | step {tasks : List (Steps σ α)} {results : List α} {s final : σ} {i : Nat} {update : σ → σ}
      {rest : σ → Steps σ α} (h : tasks[i]? = some (.next update rest))
      (hrest : Interleaved (tasks.set i (rest s)) (update s) results final) :
      Interleaved tasks s results final

/-- A task can be run to its end **before all others**. -/
theorem interleaved_of_run {before : List (Steps σ α)} {t : Steps σ α} {after : List (Steps σ α)}
    {s final : σ} {results : List α}
    (h : Interleaved (before ++ .done (t.run s).1 :: after) (t.run s).2 results final) :
    Interleaved (before ++ t :: after) s results final := by
  induction t generalizing s with
  | done a => exact h
  | next update rest ih =>
    have hhere : (before ++ .next update rest :: after)[before.length]?
        = some (.next update rest) := by simp
    refine .step hhere ?_
    rw [set_append_right _ _ (Nat.le_refl _), Nat.sub_self]
    exact ih s h

/-- **One after the other** is one of the ways side by side. -/
theorem interleaved_runAll (tasks : List (Steps σ α)) (s : σ) :
    Interleaved tasks s (runAll tasks s).1 (runAll tasks s).2 := by
  have hall (finished : List α) (tasks : List (Steps σ α)) (s : σ) :
      Interleaved (finished.map .done ++ tasks) s (finished ++ (runAll tasks s).1)
        (runAll tasks s).2 := by
    induction tasks generalizing finished s with
    | nil => exact .done (by simp [runAll])
    | cons t tasks ih =>
      refine interleaved_of_run ?_
      have hrest := ih (finished ++ [(t.run s).1]) (t.run s).2
      simpa [runAll] using hrest
  simpa using hall [] tasks s

/-! ### Contracts -/

/-- What a task **relies** on and **guarantees** while it runs, among states that satisfy an
invariant. -/
structure Contract (σ : Type) where
  /-- What holds of every state. -/
  holds : σ → Prop
  /-- What others may do between two steps. -/
  relies : σ → σ → Prop
  /-- What a step of the task may do. -/
  guarantees : σ → σ → Prop

namespace Contract

variable {β : Type} (c : Contract σ)

/-- A task **ensures** a condition from a state on: each of its steps keeps the invariant and the
guarantee, and it goes on in the same way from whatever others make of the state. -/
def Ensures (post : α → σ → Prop) : Steps σ α → σ → Prop
  | .done a, s => post a s
  | .next update rest, s =>
    c.holds (update s) ∧ c.guarantees s (update s) ∧
      ∀ s', c.relies (update s) s' → c.holds s' → Ensures post (rest s) s'

/-- A task ensures a condition **from whatever** others make of a state. -/
def Promises (post : α → σ → Prop) (t : Steps σ α) (s : σ) : Prop :=
  ∀ s', c.relies s s' → c.holds s' → c.Ensures post t s'

variable {c}

theorem Ensures.bind {x : Steps σ α} {f : α → Steps σ β} {post : α → σ → Prop}
    {post' : β → σ → Prop} {s : σ} (hx : c.Ensures post x s)
    (hf : ∀ a s, post a s → c.Ensures post' (f a) s) : c.Ensures post' (x >>= f) s := by
  show c.Ensures post' (x.bind f) s
  induction x generalizing s with
  | done a => exact hf a s hx
  | next update rest ih =>
    obtain ⟨hholds, hguarantees, hrest⟩ := hx
    exact ⟨hholds, hguarantees, fun s' hs' hholds' ↦ ih s (hrest s' hs' hholds')⟩

theorem ensures_pure {post : α → σ → Prop} {a : α} {s : σ} (h : post a s) :
    c.Ensures post (pure a) s := h

/-- A task of one step ensures what **others leave** as it is. -/
theorem ensures_atomically {f : σ → α × σ} {post : α → σ → Prop} {s : σ}
    (hholds : c.holds (f s).2) (hguarantees : c.guarantees s (f s).2)
    (hpost : ∀ s', c.relies (f s).2 s' → c.holds s' → post (f s).1 s') :
    c.Ensures post (Steps.atomically f) s :=
  ⟨hholds, hguarantees, hpost⟩

end Contract

/-- **Tasks side by side.** Let every task promise its condition under a contract of its own, with
an invariant that they share, such that what others may do adds up, and what one guarantees the
others rely on. Then, in whatever order the steps are taken, each result satisfies the condition of
its task in the final state. -/
theorem Interleaved.ensures {holds : σ → Prop} (relies guarantees : Nat → σ → σ → Prop)
    (post : Nat → α → σ → Prop) (hrefl : ∀ i s, relies i s s)
    (htrans : ∀ i s s' s'', relies i s s' → relies i s' s'' → relies i s s'')
    (hothers : ∀ i j s s', i ≠ j → guarantees j s s' → relies i s s')
    {tasks : List (Steps σ α)} {s final : σ} {results : List α}
    (h : Interleaved tasks s results final) (hs : holds s)
    (htasks : ∀ i t, tasks[i]? = some t →
      (⟨holds, relies i, guarantees i⟩ : Contract σ).Promises (post i) t s) :
    holds final ∧ results.length = tasks.length ∧
      ∀ i a, results[i]? = some a → post i a final := by
  induction h with
  | @done tasks results s htasks' =>
    subst htasks'
    refine ⟨hs, by simp, fun i a ha ↦ ?_⟩
    exact htasks i (.done a) (by simp [ha]) s (hrefl i s) hs
  | @step tasks results s final i update rest hi _ ih =>
    obtain ⟨hholds, hguarantees, hrest⟩ := htasks i _ hi s (hrefl i s) hs
    have hlength : i < tasks.length := (List.getElem?_eq_some_iff.1 hi).1
    obtain ⟨hfinal, hresults, hpost⟩ := ih hholds fun j t hj ↦ by
      by_cases hij : j = i
      · -- The task that has taken the step goes on.
        subst hij
        rw [getElem?_set_self hlength] at hj
        cases hj
        exact hrest
      · -- The step is one that all other tasks rely on.
        rw [getElem?_set_ne (Ne.symm hij)] at hj
        intro s' hs' hholds'
        exact htasks j t hj s' (htrans j _ _ _ (hothers j i _ _ hij hguarantees) hs') hholds'
    exact ⟨hfinal, by simpa using hresults, hpost⟩

end ScriptTree
