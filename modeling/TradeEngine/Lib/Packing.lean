import Mathlib.Algebra.BigOperators.Ring.Finset
import Mathlib.Algebra.Order.BigOperators.Group.Finset

/-!
# Packings at full counts

Kinds of things share what is held of several resources, and each kind has a gain for each of its
units. Where only kinds of a single unit compete, the kinds taken whole or not at all do as well as
any counts between.
-/

namespace TradeEngine.Lib

open Finset

variable {K R G : Type} [AddCommGroup G] [LinearOrder G] [IsOrderedAddMonoid G] {most count : K → Nat}
  {takes : K → R → Int} {gain : K → G} {s : Finset K}

theorem nsmul_le_of_nonpos {g : G} (hg : g ≤ 0) {i j : Nat} (h : i ≤ j) : j • g ≤ i • g := by
  obtain ⟨d, rfl⟩ := Nat.exists_eq_add_of_le h
  rw [add_nsmul]
  exact add_le_of_nonpos_right (nsmul_nonpos hg d)

/-- Some of the kinds, each whole, fit and gain no more than the counts do. -/
theorem exists_whole {fits : R → Int → Prop} (hpos : ∀ a ∈ s, 0 < count a) (hmost : ∀ a ∈ s, count a ≤ most a)
    (hfree : ∀ a ∈ s, 2 ≤ most a → ∀ t ⊆ s, ∀ r, takes a r ≠ 0 → fits r (∑ b ∈ t, most b * takes b r))
    (hfits : ∀ r, fits r (∑ a ∈ s, count a * takes a r)) :
    ∃ t ⊆ s, (∀ r, fits r (∑ a ∈ t, most a * takes a r)) ∧
      ∑ a ∈ t, most a • gain a ≤ ∑ a ∈ s, count a • gain a := by
  classical
  have hsingle : ∀ a ∈ s, most a ≤ 1 → count a = most a := by
    intro a ha hle
    have := hpos a ha
    have := hmost a ha
    omega
  refine ⟨s.filter fun a => most a ≤ 1 ∨ gain a ≤ 0, filter_subset _ _, fun r => ?_, ?_⟩
  · by_cases hshared : ∃ a ∈ s, 2 ≤ most a ∧ takes a r ≠ 0
    · obtain ⟨a, ha, htwo, hne⟩ := hshared
      exact hfree a ha htwo _ (filter_subset _ _) r hne
    · -- on this resource each kind is single, and is kept
      have hsame : ∑ a ∈ s with most a ≤ 1 ∨ gain a ≤ 0, (most a : Int) * takes a r =
          ∑ a ∈ s, (count a : Int) * takes a r := by
        rw [sum_filter]
        refine sum_congr rfl fun a ha => ?_
        by_cases hle : most a ≤ 1
        · rw [if_pos (.inl hle), hsingle a ha hle]
        · have hzero : takes a r = 0 := by
            by_contra hne
            exact hshared ⟨a, ha, by omega, hne⟩
          simp [hzero]
      rw [hsame]
      exact hfits r
  · rw [sum_filter]
    refine sum_le_sum fun a ha => ?_
    by_cases hle : most a ≤ 1
    · rw [if_pos (.inl hle), hsingle a ha hle]
    · by_cases hgain : gain a ≤ 0
      · rw [if_pos (.inr hgain)]
        exact nsmul_le_of_nonpos hgain (hmost a ha)
      · rw [if_neg (by simp [hle, hgain])]
        exact nsmul_nonneg (not_le.mp hgain).le _

end TradeEngine.Lib
