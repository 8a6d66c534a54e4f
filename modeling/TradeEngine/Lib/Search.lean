import Mathlib.Tactic

/-!
# Searching a sorted list

Bisection for the point where a predicate stops holding, and for an element by its key.
-/

namespace TradeEngine.Lib

variable {α K : Type}

/-- The bounds of a search narrowed to one point: below `lo` the predicate holds, from `hi` on it fails. -/
def bisect (p : α → Bool) (l : List α) : Nat → Nat → Nat → Nat
  | 0, lo, _ => lo
  | fuel + 1, lo, hi =>
    if lo < hi then
      let mid := lo + (hi - lo) / 2
      if l[mid]?.any p then bisect p l fuel (mid + 1) hi else bisect p l fuel lo mid
    else lo

/-- The first index whose element fails the predicate, in a list that fails it from some point on. -/
def partitionPoint (p : α → Bool) (l : List α) : Nat := bisect p l l.length 0 l.length

/-- Where in a list sorted by `key` the element of a key is. -/
def binarySearchByKey [LinearOrder K] (key : α → K) (l : List α) (k : K) : Option Nat :=
  let i := partitionPoint (fun a => key a < k) l
  if l[i]?.any (fun a => key a = k) then some i else none

/-- A list that fails the predicate from some point on. -/
def Partitioned (p : α → Bool) (l : List α) : Prop := l.Pairwise fun a b => p b = true → p a = true

variable {p : α → Bool} {l : List α}

theorem Partitioned.mono (h : Partitioned p l) {i j : Nat} {a b : α} (hij : i ≤ j) (ha : l[i]? = some a) (hb : l[j]? = some b)
    (hp : p b = true) : p a = true := by
  obtain ⟨hi, rfl⟩ := List.getElem?_eq_some_iff.1 ha
  obtain ⟨hj, rfl⟩ := List.getElem?_eq_some_iff.1 hb
  rcases hij.lt_or_eq with hlt | rfl
  · exact List.pairwise_iff_getElem.1 h i j hi hj hlt hp
  · exact hp

/-- What bisection has found out about the list. -/
structure Bracket (p : α → Bool) (l : List α) (lo hi : Nat) : Prop where
  le : lo ≤ hi
  hi_le : hi ≤ l.length
  below : ∀ i a, i < lo → l[i]? = some a → p a = true
  above : ∀ i a, hi ≤ i → l[i]? = some a → p a = false

theorem bisect_bracket (h : Partitioned p l) {fuel lo hi : Nat} (hb : Bracket p l lo hi) (hfuel : hi - lo ≤ fuel) :
    Bracket p l (bisect p l fuel lo hi) (bisect p l fuel lo hi) := by
  induction fuel generalizing lo hi with
  | zero =>
    obtain rfl : lo = hi := by have := hb.le; omega
    exact hb
  | succ fuel ih =>
    rw [bisect]
    by_cases hlt : lo < hi
    · rw [if_pos hlt]
      have hmid : lo + (hi - lo) / 2 < hi := by omega
      generalize hm : lo + (hi - lo) / 2 = mid at hmid
      have hlo : lo ≤ mid := by omega
      have hlen : mid < l.length := hmid.trans_le hb.hi_le
      have hget : l[mid]? = some l[mid] := List.getElem?_eq_getElem hlen
      dsimp only
      rw [hget, Option.any_some]
      split_ifs with hp
      · apply ih _ (by omega)
        exact ⟨hmid, hb.hi_le, fun i a hi ha => h.mono (Nat.le_of_lt_succ hi) ha hget hp, hb.above⟩
      · apply ih _ (by omega)
        refine ⟨hlo, hmid.le.trans hb.hi_le, hb.below, fun i a hi ha => ?_⟩
        by_contra hpa
        exact hp (h.mono hi hget ha (by simpa using hpa))
    · rw [if_neg hlt]
      obtain rfl : lo = hi := by have := hb.le; omega
      exact hb

/-- The elements before the partition point satisfy the predicate, the others fail it. -/
theorem partitionPoint_bracket (h : Partitioned p l) : Bracket p l (partitionPoint p l) (partitionPoint p l) := by
  have hall : Bracket p l 0 l.length :=
    ⟨Nat.zero_le _, le_rfl, by simp, fun i a hi ha => absurd (List.getElem?_eq_some_iff.1 ha).1 (not_lt.2 hi)⟩
  exact bisect_bracket h hall (Nat.sub_le _ _)

theorem lt_partitionPoint_iff (h : Partitioned p l) {i : Nat} {a : α} (ha : l[i]? = some a) :
    i < partitionPoint p l ↔ p a = true := by
  have hb := partitionPoint_bracket h
  constructor
  · exact fun hi => hb.below i a hi ha
  · intro hp
    by_contra hi
    rw [hb.above i a (not_lt.1 hi) ha] at hp
    cases hp

/-- The partition point is where the predicate holds before it and fails at it. -/
theorem partitionPoint_eq (h : Partitioned p l) {i : Nat} {a : α} (ha : l[i]? = some a) (hpa : p a = false)
    (hbefore : ∀ j b, j < i → l[j]? = some b → p b = true) : partitionPoint p l = i := by
  have hle : partitionPoint p l ≤ i := by
    by_contra hlt
    rw [(lt_partitionPoint_iff h ha).1 (not_le.1 hlt)] at hpa
    cases hpa
  rcases hle.lt_or_eq with hlt | heq
  · have hget := List.getElem?_eq_getElem (hlt.trans (List.getElem?_eq_some_iff.1 ha).1)
    have hself := (lt_partitionPoint_iff h hget).2 (hbefore _ _ hlt hget)
    exact absurd hself (lt_irrefl _)
  · exact heq

section Sorted

variable [LinearOrder K] {f : α → K}

theorem key_lt_of_lt (h : l.Pairwise fun a b => f a < f b) {i j : Nat} {a b : α} (hij : i < j) (ha : l[i]? = some a)
    (hb : l[j]? = some b) : f a < f b := by
  obtain ⟨hi, rfl⟩ := List.getElem?_eq_some_iff.1 ha
  obtain ⟨hj, rfl⟩ := List.getElem?_eq_some_iff.1 hb
  exact List.pairwise_iff_getElem.1 h i j hi hj hij

theorem partitioned_lt (h : l.Pairwise fun a b => f a < f b) (k : K) : Partitioned (fun a => decide (f a < k)) l := by
  apply h.imp
  intro a b hab hb
  simp only [decide_eq_true_eq] at hb ⊢
  exact hab.trans hb

theorem partitioned_le (h : l.Pairwise fun a b => f a < f b) (k : K) : Partitioned (fun a => decide (f a ≤ k)) l := by
  apply h.imp
  intro a b hab hb
  simp only [decide_eq_true_eq] at hb ⊢
  exact hab.le.trans hb

/-- An element's own place is how many keys are below its own. -/
theorem partitionPoint_lt_eq (h : l.Pairwise fun a b => f a < f b) {i : Nat} {a : α} (ha : l[i]? = some a) :
    partitionPoint (fun b => decide (f b < f a)) l = i := by
  apply partitionPoint_eq (partitioned_lt h _) ha
  · simp
  · intro j b hj hb
    simpa using key_lt_of_lt h hj hb ha

/-- The search finds the one element that has the key. -/
theorem binarySearchByKey_eq (h : l.Pairwise fun a b => f a < f b) {i : Nat} {a : α} (ha : l[i]? = some a) :
    binarySearchByKey f l (f a) = some i := by
  simp only [binarySearchByKey, partitionPoint_lt_eq h ha, ha, Option.any_some, decide_true, if_true]

end Sorted

end TradeEngine.Lib
