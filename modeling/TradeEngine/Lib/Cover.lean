import Mathlib.Tactic
import Mathlib.Algebra.Order.BigOperators.Group.Finset
import Mathlib.Data.Finset.Max

/-!
# Demands covered by supplies that last as long

A demand falls due at a time; a supply lasts until a time and serves every demand due by then; stock
of one's own serves any demand. Since the supplies that serve a demand serve every earlier one, all
demands can be served as soon as, from each time on, no more is due than is on hand.
-/

namespace TradeEngine.Lib

open Finset

variable {τ : Type} [LinearOrder τ]

/-- What falls due, or lasts, at `t` or later. -/
def dueFrom (t : τ) (l : List (τ × ℚ)) : ℚ := (l.map fun x => if t ≤ x.1 then x.2 else 0).sum

theorem dueFrom_eq_sum (t : τ) (l : List (τ × ℚ)) :
    dueFrom t l = ∑ i with t ≤ (l.get i).1, (l.get i).2 := by
  rw [sum_filter, dueFrom, ← List.sum_ofFn]
  congr 1
  apply List.ext_get
  · simp
  · intro n h h'
    simp

section Flow

variable {ι κ : Type} [Fintype κ] {e : ι → τ} {x : κ → τ} {d : ι → ℚ}

/-- Some part of a stock, as much as is asked for or as there is, in the units of the stock. -/
theorem exists_take [DecidableEq κ] (S : AddSubgroup ℚ) {c : κ → ℚ} (hc : ∀ j, 0 ≤ c j ∧ c j ∈ S)
    (s : Finset κ) {q : ℚ} (hq : 0 ≤ q) (hqS : q ∈ S) :
    ∃ g : κ → ℚ, (∀ j, 0 ≤ g j ∧ g j ≤ c j) ∧ (∀ j, g j ∈ S) ∧ (∀ j, j ∉ s → g j = 0) ∧
      ∑ j, g j = min q (∑ j ∈ s, c j) := by
  induction s using Finset.induction_on generalizing q with
  | empty =>
      refine ⟨fun _ => 0, fun j => ⟨le_rfl, (hc j).1⟩, fun _ => S.zero_mem, fun _ _ => rfl, ?_⟩
      rw [sum_const_zero, sum_empty, min_eq_right hq]
  | insert a s ha ih =>
      have hmin : 0 ≤ min q (c a) := le_min hq (hc a).1
      have hminS : min q (c a) ∈ S := by
        rcases min_choice q (c a) with h | h <;> rw [h]
        · exact hqS
        · exact (hc a).2
      obtain ⟨g, hg, hgS, hout, hsum⟩ := ih (sub_nonneg.mpr (min_le_left q (c a)))
        (S.sub_mem hqS hminS)
      refine ⟨Function.update g a (min q (c a)), fun j => ?_, fun j => ?_, fun j hj => ?_, ?_⟩
      · by_cases hj : j = a
        · rw [hj, Function.update_self]
          exact ⟨hmin, min_le_right _ _⟩
        · rw [Function.update_of_ne hj]
          exact hg j
      · by_cases hj : j = a
        · rw [hj, Function.update_self]
          exact hminS
        · rw [Function.update_of_ne hj]
          exact hgS j
      · rw [mem_insert, not_or] at hj
        rw [Function.update_of_ne hj.1]
        exact hout j hj.2
      · have hrest : ∑ j ∈ univ \ {a}, g j = ∑ j, g j := by
          refine sum_subset (subset_univ _) fun j _ hj => hout j ?_
          have hja : j = a := by simpa using hj
          exact hja ▸ ha
        have hstock : 0 ≤ ∑ j ∈ s, c j := sum_nonneg fun j _ => (hc j).1
        rw [sum_update_of_mem (mem_univ a), hrest, hsum, sum_insert ha]
        rcases le_total q (c a) with h | h
        · rw [min_eq_left h, sub_self, min_eq_left hstock, add_zero, min_eq_left (by linarith)]
        · rw [min_eq_right h, ← min_add_add_left, add_sub_cancel]

/-- Serving the latest demand first leaves enough for the others: what it uses lasts longer than any
of them asks. -/
theorem exists_flow [DecidableEq ι] [DecidableEq κ] (S : AddSubgroup ℚ)
    (hd : ∀ i, 0 ≤ d i ∧ d i ∈ S) (s : Finset ι) :
    ∀ (c : κ → ℚ) (own : ℚ), (∀ j, 0 ≤ c j ∧ c j ∈ S) → 0 ≤ own →
      (∀ t, ∑ i ∈ s with t ≤ e i, d i ≤ own + ∑ j with t ≤ x j, c j) →
      ∃ f : ι → κ → ℚ, (∀ i j, 0 ≤ f i j ∧ f i j ∈ S) ∧ (∀ i j, f i j ≠ 0 → e i ≤ x j) ∧
        (∀ j, ∑ i ∈ s, f i j ≤ c j) ∧ (∀ i ∈ s, ∑ j, f i j ≤ d i) ∧
        ∑ i ∈ s, (d i - ∑ j, f i j) ≤ own := by
  induction s using Finset.induction_on_max_value e with
  | empty =>
      intro c own hc hown _
      exact ⟨fun _ _ => 0, fun _ _ => ⟨le_rfl, S.zero_mem⟩, by simp, fun j => by simpa using (hc j).1,
        by simp, by simpa using hown⟩
  | insert a s ha hmax ih =>
      intro c own hc hown hdue
      obtain ⟨g, hg, hgS, hsupp, hsum⟩ := exists_take S hc {j | e a ≤ x j} (hd a).1 (hd a).2
      have htake : ∑ j, g j ≤ d a := hsum ▸ min_le_left _ _
      have hout : d a - ∑ j, g j ≤ own := by
        have hat := hdue (e a)
        rw [filter_insert, if_pos le_rfl, sum_insert (by simp [ha])] at hat
        have hrest : 0 ≤ ∑ i ∈ s with e a ≤ e i, d i := sum_nonneg fun i _ => (hd i).1
        rcases min_choice (d a) (∑ j with e a ≤ x j, c j) with h | h <;> rw [h] at hsum
        · rw [hsum]
          linarith
        · rw [hsum]
          linarith
      have hlater : ∀ t, t ≤ e a → ∑ j with t ≤ x j, g j = ∑ j, g j := by
        intro t ht
        refine sum_subset (filter_subset _ _) fun j _ hj => hsupp j fun hmem => hj ?_
        simp only [mem_filter, mem_univ, true_and] at hmem ⊢
        exact ht.trans hmem
      obtain ⟨f, hf, hserve, hcap, hdem, hown'⟩ := ih (fun j => c j - g j) (own - (d a - ∑ j, g j))
        (fun j => ⟨sub_nonneg.mpr (hg j).2, S.sub_mem (hc j).2 (hgS j)⟩) (sub_nonneg.mpr hout) (by
          intro t
          by_cases ht : t ≤ e a
          · have hat := hdue t
            rw [filter_insert, if_pos ht, sum_insert (by simp [ha])] at hat
            rw [sum_sub_distrib, hlater t ht]
            linarith
          · have hnone : ({i ∈ s | t ≤ e i} : Finset ι) = ∅ := by
              refine filter_eq_empty_iff.mpr fun i hi hti => ht (hti.trans (hmax i hi))
            have hleft : 0 ≤ ∑ j with t ≤ x j, (c j - g j) :=
              sum_nonneg fun j _ => sub_nonneg.mpr (hg j).2
            rw [hnone, sum_empty]
            linarith)
      have hne : ∀ i ∈ s, i ≠ a := fun i hi heq => ha (heq ▸ hi)
      have hold : ∀ i ∈ s, Function.update f a g i = f i := fun i hi =>
        Function.update_of_ne (hne i hi) _ _
      refine ⟨Function.update f a g, ?_, ?_, ?_, ?_, ?_⟩
      · intro i j
        by_cases hi : i = a
        · rw [hi, Function.update_self]
          exact ⟨(hg j).1, hgS j⟩
        · rw [Function.update_of_ne hi]
          exact hf i j
      · intro i j hij
        by_cases hi : i = a
        · rw [hi, Function.update_self] at hij
          have hmem : j ∈ ({j | e a ≤ x j} : Finset κ) := by
            by_contra hj
            exact hij (hsupp j hj)
          rw [hi]
          simpa using hmem
        · rw [Function.update_of_ne hi] at hij
          exact hserve i j hij
      · intro j
        rw [sum_insert ha, Function.update_self, sum_congr rfl fun i hi => by rw [hold i hi]]
        linarith [hcap j]
      · intro i hi
        rcases mem_insert.mp hi with rfl | hi
        · rw [Function.update_self]
          exact htake
        · rw [hold i hi]
          exact hdem i hi
      · have hsame : ∑ i ∈ s, (d i - ∑ j, Function.update f a g i j) = ∑ i ∈ s, (d i - ∑ j, f i j) :=
          sum_congr rfl fun i hi => by rw [hold i hi]
        rw [sum_insert ha, Function.update_self, hsame]
        linarith

end Flow

section Assignments

/-- An assignment of supplies to demands, in the units of `S`: a supply serves only demands due no
later than it lasts, and no part of it is used twice. -/
structure Assignment (S : AddSubgroup ℚ) (supplies demands : List (τ × ℚ)) where
  amount : Fin demands.length → Fin supplies.length → ℚ
  amount_mem : ∀ i j, 0 ≤ amount i j ∧ amount i j ∈ S
  serves : ∀ i j, amount i j ≠ 0 → (demands.get i).1 ≤ (supplies.get j).1
  supply_le : ∀ j, ∑ i, amount i j ≤ (supplies.get j).2
  demand_le : ∀ i, ∑ j, amount i j ≤ (demands.get i).2

variable {S : AddSubgroup ℚ} {supplies demands : List (τ × ℚ)}

/-- What an assignment leaves unserved. -/
def Assignment.left (f : Assignment S supplies demands) : ℚ :=
  ∑ i, ((demands.get i).2 - ∑ j, f.amount i j)

theorem Assignment.due_le (f : Assignment S supplies demands) (t : τ) :
    dueFrom t demands ≤ f.left + dueFrom t supplies := by
  rw [dueFrom_eq_sum, dueFrom_eq_sum]
  have hown : ∑ i with t ≤ (demands.get i).1, ((demands.get i).2 - ∑ j, f.amount i j) ≤ f.left :=
    sum_le_sum_of_subset_of_nonneg (filter_subset _ _) fun i _ _ => sub_nonneg.mpr (f.demand_le i)
  -- what serves a demand due from `t` on lasts until `t` too
  have hlasts : ∀ i, t ≤ (demands.get i).1 →
      ∑ j, f.amount i j = ∑ j with t ≤ (supplies.get j).1, f.amount i j := by
    intro i hi
    refine (sum_subset (filter_subset _ _) fun j _ hj => ?_).symm
    by_contra hne
    simp only [mem_filter, mem_univ, true_and] at hj
    exact hj (hi.trans (f.serves i j hne))
  have hused : ∑ i with t ≤ (demands.get i).1, ∑ j, f.amount i j ≤
      ∑ j with t ≤ (supplies.get j).1, (supplies.get j).2 := by
    rw [sum_congr rfl fun i hi => hlasts i (mem_filter.mp hi).2, sum_comm]
    refine sum_le_sum fun j _ => ?_
    refine (sum_le_sum_of_subset_of_nonneg (filter_subset _ _)
      fun i _ _ => (f.amount_mem i j).1).trans (f.supply_le j)
  rw [sum_sub_distrib] at hown
  linarith

theorem exists_assignment {own : ℚ} (hown : 0 ≤ own) (hs : ∀ y ∈ supplies, 0 ≤ y.2 ∧ y.2 ∈ S)
    (hd : ∀ y ∈ demands, 0 ≤ y.2 ∧ y.2 ∈ S)
    (hdue : ∀ t, dueFrom t demands ≤ own + dueFrom t supplies) :
    ∃ f : Assignment S supplies demands, f.left ≤ own := by
  obtain ⟨f, hf, hserve, hcap, hdem, hrest⟩ := exists_flow (e := fun i => (demands.get i).1)
    (x := fun j => (supplies.get j).1) S (fun i => hd _ (List.get_mem demands i)) univ
    (fun j => (supplies.get j).2) own (fun j => hs _ (List.get_mem supplies j)) hown
    (fun t => by rw [← dueFrom_eq_sum, ← dueFrom_eq_sum]; exact hdue t)
  exact ⟨⟨f, hf, hserve, hcap, fun i => hdem i (mem_univ i)⟩, hrest⟩

/-- The least that an assignment can leave unserved: what is short at the worst time. -/
theorem isLeast_left {own : ℚ} (hown : 0 ≤ own) (hs : ∀ y ∈ supplies, 0 ≤ y.2 ∧ y.2 ∈ S)
    (hd : ∀ y ∈ demands, 0 ≤ y.2 ∧ y.2 ∈ S)
    (hdue : ∀ t, dueFrom t demands ≤ own + dueFrom t supplies)
    (hworst : own = 0 ∨ ∃ t, own ≤ dueFrom t demands - dueFrom t supplies) :
    IsLeast (Set.range fun f : Assignment S supplies demands => f.left) own := by
  have hlow : ∀ f : Assignment S supplies demands, own ≤ f.left := by
    intro f
    rcases hworst with rfl | ⟨t, ht⟩
    · exact sum_nonneg fun i _ => sub_nonneg.mpr (f.demand_le i)
    · linarith [f.due_le t]
  obtain ⟨f, hf⟩ := exists_assignment hown hs hd hdue
  refine ⟨⟨f, le_antisymm hf (hlow f)⟩, ?_⟩
  rintro _ ⟨f, rfl⟩
  exact hlow f

end Assignments

end TradeEngine.Lib
