import ScriptTree.Text.CodePoint

/-!
# Similar texts

Two texts are similar when they share much of what they hold, in the same order. What they share is
found greedily: the longest common run, then what the parts before it and after it share.
-/

namespace ScriptTree.Text

/-- The length of the longest common start of two texts. -/
def commonStart : Text → Text → Nat
  | a :: as, b :: bs => if a = b then commonStart as bs + 1 else 0
  | _, _ => 0

/-- The **longest run** that two texts have in common, as its positions and its length; of several
the first. -/
def longestCommon (a b : Text) : Nat × Nat × Nat :=
  (List.range a.length).foldl
    (fun best i =>
      (List.range b.length).foldl
        (fun best j =>
          let n := commonStart (a.drop i) (b.drop j)
          if best.2.2 < n then (i, j, n) else best)
        best)
    (0, 0, 0)

/-- How much two texts **share**; `n` bounds the number of runs. -/
def sharedSize : Nat → Text → Text → Nat
  | 0, _, _ => 0
  | n + 1, a, b =>
    let (i, j, size) := longestCommon a b
    if size = 0 then 0
    else
      sharedSize n (a.take i) (b.take j) + size + sharedSize n (a.drop (i + size)) (b.drop (j + size))

/-- How similar two texts are, as a fraction. -/
def similarity (a b : Text) : Nat × Nat := (2 * sharedSize (a.length + 1) a b, a.length + b.length)

/-- The texts among some that are **most similar** to one, at most three, the best first. -/
def closest (word : Text) (candidates : List Text) : List Text :=
  let scored := candidates.filterMap fun c =>
    let (shared, total) := similarity c word
    if 6 * total ≤ 10 * shared then some (c, shared, total) else none
  ((scored.mergeSort fun a b => b.2.1 * a.2.2 ≤ a.2.1 * b.2.2).take 3).map (·.1)

end ScriptTree.Text
