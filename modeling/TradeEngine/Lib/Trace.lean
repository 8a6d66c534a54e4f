import Mathlib.Tactic

/-!
# What happened, in order

A trace lists what happened, first things first. A rule says what may happen after a given past, and a
trace keeps it when every entry was allowed by the entries before it.
-/

namespace TradeEngine.Lib

variable {α : Type}

/-- Every entry was allowed by what stood before it. -/
def Orderly (allowed : List α → α → Prop) (t : List α) : Prop :=
  ∀ past h later, t = past ++ h :: later → allowed past h

namespace Orderly

variable {allowed : List α → α → Prop} {t : List α} {h : α}

theorem nil : Orderly allowed [] := by
  intro past h later ht
  simp at ht

theorem snoc (ht : Orderly allowed t) (hh : allowed t h) : Orderly allowed (t ++ [h]) := by
  intro past x later heq
  rcases List.eq_nil_or_concat later with rfl | ⟨later, y, rfl⟩
  · obtain ⟨rfl, hx⟩ := List.append_inj' heq rfl
    cases hx
    exact hh
  · have hsnoc : t ++ [h] = past ++ x :: later ++ [y] := by simpa using heq
    exact ht past x later (List.append_inj' hsnoc rfl).1

end Orderly

end TradeEngine.Lib
