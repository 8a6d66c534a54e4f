import Mathlib.Tactic

/-!
# Streaks

A streak of a list of flags is a block of it that holds no `false`. A list keeps a bound when none of its
streaks is longer, and the streak at its end says how far the next flag can take it.
-/

namespace TradeEngine.Lib

/-- No streak of the list is longer than `n`. -/
def StreaksLe (n : Nat) (l : List Bool) : Prop := ∀ s, s <:+: l → false ∉ s → s.length ≤ n

/-- The streak at the end of the list is `k` long. -/
structure Streak (k : Nat) (l : List Bool) : Prop where
  suffix : List.replicate k true <:+ l
  longest : ∀ s, s <:+ l → false ∉ s → s.length ≤ k

namespace Streak

variable {k n : Nat} {l : List Bool}

theorem nil : Streak 0 [] where
  suffix := List.suffix_rfl
  longest s hs _ := by simp [List.suffix_nil.1 hs]

theorem hit (h : Streak k l) : Streak (k + 1) (l ++ [true]) where
  suffix := by
    obtain ⟨t, rfl⟩ := h.suffix
    exact ⟨t, by rw [List.replicate_succ', List.append_assoc]⟩
  longest s hs hfalse := by
    rcases List.suffix_concat_iff.1 hs with rfl | ⟨t, rfl, ht⟩
    · simp
    · have := h.longest t ht (by simpa using hfalse)
      simpa using this

theorem reset : Streak 0 (l ++ [false]) where
  suffix := List.nil_suffix
  longest s hs hfalse := by
    rcases List.suffix_concat_iff.1 hs with rfl | ⟨t, rfl, ht⟩
    · simp
    · simp at hfalse

end Streak

namespace StreaksLe

variable {k m n : Nat} {l : List Bool}

theorem nil : StreaksLe n [] := by
  intro s hs _
  simp [List.infix_nil.1 hs]

theorem hit (h : StreaksLe n l) (hk : Streak k l) (hn : k + 1 ≤ n) : StreaksLe n (l ++ [true]) := by
  intro s hs hfalse
  rcases List.infix_concat_iff.1 hs with hs | hs
  · exact (hk.hit.longest s hs hfalse).trans hn
  · exact h s hs hfalse

theorem reset (h : StreaksLe n l) : StreaksLe n (l ++ [false]) := by
  intro s hs hfalse
  rcases List.infix_concat_iff.1 hs with hs | hs
  · exact ((Streak.reset (l := l)).longest s hs hfalse).trans (Nat.zero_le n)
  · exact h s hs hfalse

/-- A streak at the end that is longer than the bound breaks it. -/
theorem of_streak (h : StreaksLe n l) (hk : Streak k l) : k ≤ n := by
  have := h _ hk.suffix.isInfix (by simp)
  simpa using this

end StreaksLe

end TradeEngine.Lib
