import Mathlib.Tactic

/-!
# Splitting a queue of amounts, first in first out

A queue of positive amounts with a tag each. `split` takes a total off the front, cutting at most
one amount in two; every weighted sum over the queue is the sum over the two parts.
-/

namespace TradeEngine.Lib.Fifo

variable {K α : Type} [Field K]

/-- The sum of the amounts weighted by their tags. -/
def weigh (w : α → K) (l : List (K × α)) : K := (l.map fun e => e.1 * w e.2).sum

def total (l : List (K × α)) : K := (l.map (·.1)).sum

@[simp] theorem weigh_nil (w : α → K) : weigh w [] = 0 := rfl

@[simp] theorem weigh_cons (w : α → K) (e : K × α) (l : List (K × α)) :
    weigh w (e :: l) = e.1 * w e.2 + weigh w l := by simp [weigh]

@[simp] theorem weigh_append (w : α → K) (l m : List (K × α)) :
    weigh w (l ++ m) = weigh w l + weigh w m := by simp [weigh]

@[simp] theorem total_nil : total ([] : List (K × α)) = 0 := rfl

@[simp] theorem total_cons (e : K × α) (l : List (K × α)) : total (e :: l) = e.1 + total l := by
  simp [total]

@[simp] theorem total_append (l m : List (K × α)) : total (l ++ m) = total l + total m := by
  simp [total]

theorem total_eq_weigh (l : List (K × α)) : total l = weigh (fun _ => 1) l := by
  simp [total, weigh]

theorem weigh_congr {w w' : α → K} {l : List (K × α)} (h : ∀ e ∈ l, w e.2 = w' e.2) :
    weigh w l = weigh w' l := by
  unfold weigh
  rw [List.map_congr_left fun e he => by rw [h e he]]

theorem weigh_mul_left (c : K) (w : α → K) (l : List (K × α)) :
    weigh (fun a => c * w a) l = c * weigh w l := by
  induction l with
  | nil => simp
  | cons e l ih => rw [weigh_cons, weigh_cons, ih]; ring

theorem weigh_add (w w' : α → K) (l : List (K × α)) :
    weigh (fun a => w a + w' a) l = weigh w l + weigh w' l := by
  induction l with
  | nil => simp
  | cons e l ih => rw [weigh_cons, weigh_cons, weigh_cons, ih]; ring

variable [LinearOrder K]

def Positive (l : List (K × α)) : Prop := ∀ e ∈ l, 0 < e.1

/-- The amounts taken off the front for `n`, and those kept. -/
def split : List (K × α) → K → List (K × α) × List (K × α)
  | [], _ => ([], [])
  | (q, a) :: l, n =>
    if n ≤ 0 then ([], (q, a) :: l)
    else if q ≤ n then ((q, a) :: (split l (n - q)).1, (split l (n - q)).2)
    else ([(n, a)], (q - n, a) :: l)

theorem split_nonpos (l : List (K × α)) {n : K} (h : n ≤ 0) : split l n = ([], l) := by
  cases l with
  | nil => rfl
  | cons e l => obtain ⟨q, a⟩ := e; simp [split, h]

theorem Positive.tail {e : K × α} {l : List (K × α)} (h : Positive (e :: l)) : Positive l :=
  fun x hx => h x (List.mem_cons_of_mem _ hx)

/-- Nothing is lost or counted twice. -/
theorem split_weigh (w : α → K) (l : List (K × α)) (n : K) :
    weigh w (split l n).1 + weigh w (split l n).2 = weigh w l := by
  induction l generalizing n with
  | nil => simp [split]
  | cons e l ih =>
      obtain ⟨q, a⟩ := e
      unfold split
      split_ifs
      · simp
      · rw [weigh_cons, weigh_cons, ← ih (n - q)]; ring
      · simp only [weigh_cons, weigh_nil]; ring

theorem split_total (l : List (K × α)) (n : K) :
    total (split l n).1 + total (split l n).2 = total l := by
  simp only [total_eq_weigh, split_weigh]

/-- Both parts carry tags of the queue. -/
theorem split_tags {P : α → Prop} {l : List (K × α)} (h : ∀ e ∈ l, P e.2) (n : K) :
    (∀ e ∈ (split l n).1, P e.2) ∧ ∀ e ∈ (split l n).2, P e.2 := by
  induction l generalizing n with
  | nil => simp [split]
  | cons e l ih =>
      obtain ⟨q, a⟩ := e
      have ha : P a := h (q, a) List.mem_cons_self
      have hl : ∀ e ∈ l, P e.2 := fun e he => h e (List.mem_cons_of_mem _ he)
      unfold split
      split_ifs
      · simpa using h
      · obtain ⟨ht, hk⟩ := ih hl (n - q)
        exact ⟨by simpa [ha] using ht, hk⟩
      · exact ⟨by simpa using ha, by simpa [ha] using hl⟩

variable [IsStrictOrderedRing K]

theorem Positive.total_nonneg {l : List (K × α)} (h : Positive l) : 0 ≤ total l :=
  List.sum_nonneg fun _ hx => by
    obtain ⟨e, he, rfl⟩ := List.mem_map.mp hx
    exact (h e he).le

/-- A positive queue sums to nothing only when it is empty. -/
theorem Positive.total_eq_zero {l : List (K × α)} (h : Positive l) : total l = 0 ↔ l = [] := by
  cases l with
  | nil => simp
  | cons e l =>
      have he := h e (by simp)
      have hl := h.tail.total_nonneg
      simp only [total_cons, reduceCtorEq, iff_false]
      linarith

/-- What is taken is what was asked for, as long as the queue holds it. -/
theorem split_total_taken {l : List (K × α)} {n : K} (h0 : 0 ≤ n) (hn : n ≤ total l) :
    total (split l n).1 = n := by
  induction l generalizing n with
  | nil => simp only [total_nil] at hn; simp [split, le_antisymm h0 hn]
  | cons e l ih =>
      obtain ⟨q, a⟩ := e
      simp only [total_cons] at hn
      unfold split
      split_ifs with hz hq
      · simp [le_antisymm hz h0]
      · rw [total_cons, ih (sub_nonneg.mpr hq) (by linarith)]; ring
      · simp

end TradeEngine.Lib.Fifo
