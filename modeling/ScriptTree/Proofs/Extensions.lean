import ScriptTree.Proofs.Path

/-!
# Specifiers with extensions

What is put on at the end of a specifier counts as its extension only if something other than dots
stands before it, after the last slash. So a specifier **settles** once its extension is there,
except where the last piece is empty or dots only: there an extension is put on again each time.

## Main results

* `extensionOf_eq_iff`: when a specifier has the extension of a format.
* `ensureExtension_settles_iff`: which specifiers settle.
-/

namespace ScriptTree

open List

variable {s t : Text}

/-- The last piece of a specifier starts **after the last slash**. -/
theorem exists_lastPiece (s : Text) : ∃ front, s = front ++ lastPiece s ∧
    CodePoint.scalar '/' ∉ lastPiece s ∧ ∀ c ∈ front.getLast?, c = .scalar '/' := by
  refine ⟨(s.reverse.dropWhile (· ≠ .scalar '/')).reverse, ?_, fun h ↦ ?_, fun c hc ↦ ?_⟩
  · rw [lastPiece, ← reverse_append, takeWhile_append_dropWhile, reverse_reverse]
  · simpa using all_eq_true.1 all_takeWhile _ (mem_reverse.1 h)
  · have hstop := head?_dropWhile_not (· ≠ .scalar '/') s.reverse
    rw [← getLast?_reverse, hc] at hstop
    simpa using hstop

theorem lastPiece_append (s : Text) (ht : CodePoint.scalar '/' ∉ t) :
    lastPiece (s ++ t) = lastPiece s ++ t := by
  rw [lastPiece, reverse_append, takeWhile_append_of_pos, reverse_append, reverse_reverse,
    lastPiece]
  exact fun c hc ↦ by simpa using fun h : c = .scalar '/' ↦ ht (h ▸ mem_reverse.1 hc)

theorem isInternal_append (t : Text) (h : isInternal s = true) : isInternal (s ++ t) = true := by
  simp only [isInternal, Text.startsWith, Bool.or_eq_true, List.isPrefixOf_iff_prefix] at h ⊢
  exact h.imp (·.trans (prefix_append s t)) (·.trans (prefix_append s t))

/-- A specifier has the **extension** of a format if its last piece ends with it and something other
than dots stands before. -/
theorem extensionOf_eq_iff (s : Text) (f : Format) : extensionOf s = f.extension ↔
    ∃ base, lastPiece s = base ++ f.extension ∧ ∃ c ∈ base, c ≠ .scalar '.' := by
  obtain ⟨rest, hext, -, hdot, -⟩ := f.exists_extension
  rw [hext]
  refine ⟨fun h ↦ ?_, fun ⟨base, hpiece, hbase⟩ ↦ ?_⟩
  · rw [extensionOf] at h
    split at h
    · next i hi =>
      split at h
      · cases h
      · next hall => exact ⟨_, h ▸ (take_append_drop i _).symm, by simpa using hall⟩
    · cases h
  · have hall : ¬ base.all (· = .scalar '.') = true := by simpa using hbase
    simp only [extensionOf, hpiece, Path.lastDot?_append_dot base hdot, take_left, drop_left,
      if_neg hall]

/-- Putting on an extension **counts** where the last piece is more than dots. -/
theorem extensionOf_append_iff (s : Text) (f : Format) :
    extensionOf (s ++ f.extension) = f.extension ↔ ∃ c ∈ lastPiece s, c ≠ .scalar '.' := by
  obtain ⟨rest, hext, -, -, hslash⟩ := f.exists_extension
  rw [extensionOf_eq_iff, lastPiece_append s (by simpa [hext] using hslash)]
  exact ⟨fun ⟨base, hbase, hc⟩ ↦ append_cancel_right hbase ▸ hc, fun hc ↦ ⟨_, rfl, hc⟩⟩

theorem ensureExtension_eq_iff (h : isInternal s = true) (f : Format) :
    ensureExtension s f = s ↔ extensionOf s = f.extension := by
  obtain ⟨rest, hext, -⟩ := f.exists_extension
  by_cases hs : extensionOf s = f.extension <;> simp [ensureExtension, h, hext]

/-- **Which specifiers settle.** One that is not internal stays as it is. An internal one settles
with its extension exactly if something other than dots stands after its last slash; otherwise the
extension is put on the first time and the second time. -/
theorem ensureExtension_settles_iff (s : Text) (f : Format) :
    (isInternal s = false → ensureExtension s f = s) ∧
    (isInternal s = true → ∃ front piece, s = front ++ piece ∧
      (∀ c ∈ front.getLast?, c = .scalar '/') ∧ CodePoint.scalar '/' ∉ piece ∧
      (extensionOf (ensureExtension s f) = f.extension ∧
          ensureExtension (ensureExtension s f) f = ensureExtension s f ↔
        ∃ c ∈ piece, c ≠ .scalar '.') ∧
      ((∀ c ∈ piece, c = .scalar '.') →
        ensureExtension s f = s ++ f.extension ∧
        ensureExtension (ensureExtension s f) f = s ++ f.extension ++ f.extension)) := by
  refine ⟨fun h ↦ by simp [ensureExtension, h], fun h ↦ ?_⟩
  obtain ⟨front, hs, hslash, hfront⟩ := exists_lastPiece s
  refine ⟨front, lastPiece s, hs, hfront, hslash, ?_⟩
  by_cases hext : extensionOf s = f.extension
  · have hsame : ensureExtension s f = s := (ensureExtension_eq_iff h f).2 hext
    obtain ⟨base, hpiece, c, hc, hne⟩ := (extensionOf_eq_iff s f).1 hext
    have hmem : c ∈ lastPiece s := hpiece ▸ mem_append_left _ hc
    exact ⟨by simpa [hsame, hext] using ⟨c, hmem, hne⟩, fun hdots ↦ absurd (hdots c hmem) hne⟩
  · have hput : ensureExtension s f = s ++ f.extension := by simp [ensureExtension, h, hext]
    have hinternal := isInternal_append f.extension h
    rw [hput, ensureExtension_eq_iff hinternal, and_self, extensionOf_append_iff]
    refine ⟨.rfl, fun hdots ↦ ⟨rfl, ?_⟩⟩
    have hagain : ¬ extensionOf (s ++ f.extension) = f.extension := by
      simpa [extensionOf_append_iff] using hdots
    simp [ensureExtension, hinternal, hagain]

example : ensureExtension "./.." .static = "./...mjs" ∧
    ensureExtension "./...mjs" .static = "./...mjs.mjs" ∧
    ensureExtension "./..a" .static = "./..a.mjs" ∧
    ensureExtension "./..a.mjs" .static = "./..a.mjs" := by
  decide

end ScriptTree
