import Mathlib.Algebra.BigOperators.Group.List.Basic
import Mathlib.Algebra.Order.Archimedean.Basic
import Mathlib.Algebra.Order.BigOperators.Group.List
import Mathlib.Data.Rat.Floor
import Mathlib.Data.List.Sort
import Mathlib.Tactic

/-!
# Largest remainders

Quotas that add up to a whole number, rounded down, fall short of it by fewer than there are quotas. Adding one to as
many of them, whichever they are, makes up the number and leaves each within one of its quota.
-/

namespace TradeEngine.Lib

/-! ## Adding one at chosen places -/

section Topped

variable {R : Type} [AddCommMonoidWithOne R]

/-- The list with one added at each of the places. -/
def topped (places : List ℕ) (l : List R) : List R :=
  l.zipIdx.map fun p => if places.contains p.2 then p.1 + 1 else p.1

theorem sum_map_ite_add_one {α : Type} (value : α → R) (chosen : α → Bool) (l : List α) :
    (l.map fun a => if chosen a then value a + 1 else value a).sum = (l.map value).sum + (l.countP chosen : R) := by
  induction l with
  | nil => simp
  | cons a l ih =>
    cases ha : chosen a with
    | false => simp [ha, ih, add_assoc]
    | true =>
      rw [List.map_cons, List.sum_cons, ih, List.countP_cons_of_pos ha, ha, List.map_cons, List.sum_cons, Nat.cast_add,
        Nat.cast_one]
      simp only [if_true]
      abel

/-- Distinct places below `n` are all met on the way to `n`. -/
theorem countP_range {places : List ℕ} {n : ℕ} (hnodup : places.Nodup) (hlt : ∀ i ∈ places, i < n) :
    (List.range n).countP places.contains = places.length := by
  rw [List.countP_eq_length_filter]
  refine List.Perm.length_eq ((List.perm_ext_iff_of_nodup (List.nodup_range.filter _) hnodup).2 fun i => ?_)
  rw [List.mem_filter, List.mem_range, List.contains_iff_mem]
  constructor
  · rintro ⟨-, hi⟩
    exact hi
  · intro hi
    exact ⟨hlt i hi, hi⟩

theorem sum_topped {places : List ℕ} {l : List R} (hnodup : places.Nodup) (hlt : ∀ i ∈ places, i < l.length) :
    (topped places l).sum = l.sum + (places.length : R) := by
  have hcount : l.zipIdx.countP (fun p => places.contains p.2) = places.length := by
    have hsnd := List.countP_map (f := Prod.snd) (p := places.contains) (l := l.zipIdx)
    rw [List.zipIdx_map_snd, ← List.range_eq_range', countP_range hnodup hlt] at hsnd
    exact hsnd.symm
  rw [topped, sum_map_ite_add_one Prod.fst (fun p => places.contains p.2), hcount, List.zipIdx_map_fst]

theorem forall₂_topped (places : List ℕ) (l : List R) :
    List.Forall₂ (fun a b => b = a ∨ b = a + 1) l (topped places l) := by
  have hfst : List.Forall₂ (fun (a : R) (p : R × ℕ) => a = p.1) l l.zipIdx := by
    rw [List.forall₂_iff_get]
    refine ⟨by simp, fun i h h' => by simp⟩
  rw [topped, List.forall₂_map_right_iff]
  refine hfst.imp fun a p hp => ?_
  subst hp
  by_cases hmem : places.contains p.2 = true
  · exact .inr (if_pos hmem)
  · exact .inl (if_neg hmem)

end Topped

/-! ## Quotas -/

/-- What the quotas rounded down leave of their sum. -/
theorem sum_floor {x : List ℚ} {k : ℤ} (hsum : x.sum = k) :
    0 ≤ k - (x.map Int.floor).sum ∧ (x ≠ [] → k - (x.map Int.floor).sum < x.length) ∧
      k - (x.map Int.floor).sum ≤ x.length := by
  have hbounds : ∀ l : List ℚ, ((l.map Int.floor).sum : ℚ) ≤ l.sum ∧ l.sum ≤ (l.map Int.floor).sum + l.length ∧
      (l ≠ [] → l.sum < (l.map Int.floor).sum + l.length) := by
    intro l
    induction l with
    | nil => simp
    | cons a l ih =>
      obtain ⟨hlow, hhigh, -⟩ := ih
      have ha := Int.floor_le a
      have ha' := Int.lt_floor_add_one a
      simp only [List.map_cons, List.sum_cons, List.length_cons, Int.cast_add, Nat.cast_add, Nat.cast_one]
      refine ⟨by linarith, by linarith, fun _ => by linarith⟩
  obtain ⟨hlow, hhigh, hstrict⟩ := hbounds x
  rw [hsum] at hlow hhigh hstrict
  refine ⟨?_, fun hne => ?_, ?_⟩
  · have : (x.map Int.floor).sum ≤ k := by exact_mod_cast hlow
    omega
  · have : k < (x.map Int.floor).sum + x.length := by exact_mod_cast hstrict hne
    omega
  · have : k ≤ (x.map Int.floor).sum + x.length := by exact_mod_cast hhigh
    omega

/-- The quotas rounded down, with one added at as many places as make up the sum. -/
theorem apportion {x : List ℚ} {k : ℤ} {places : List ℕ} (hpos : ∀ a ∈ x, 0 ≤ a)
    (hnodup : places.Nodup) (hlt : ∀ i ∈ places, i < x.length) (hlen : (places.length : ℤ) = k - (x.map Int.floor).sum) :
    (topped places (x.map Int.floor)).sum = k ∧
      List.Forall₂ (fun (a : ℚ) (b : ℤ) => 0 ≤ b ∧ |(b : ℚ) - a| ≤ 1) x (topped places (x.map Int.floor)) := by
  constructor
  · rw [sum_topped hnodup (by simpa using hlt), hlen]
    omega
  · have htop := forall₂_topped places (x.map Int.floor)
    rw [List.forall₂_map_left_iff] at htop
    refine ((List.forall₂_and_left _ _).2 ⟨fun a ha => hpos a ha, htop⟩).imp ?_
    rintro a b ⟨ha, hb⟩
    have hfloor := Int.floor_nonneg.2 ha
    have hle := Int.floor_le a
    have hlt := Int.lt_floor_add_one a
    rw [abs_le]
    rcases hb with rfl | rfl
    · exact ⟨hfloor, by linarith, by linarith⟩
    · push_cast
      exact ⟨by omega, by linarith, by linarith⟩

end TradeEngine.Lib
