import Mathlib.Data.List.Sort

/-!
# Stable sorts and what holds of a beginning

A predicate that goes back along the order holds of a beginning of a sorted list. What it selects is sorted by
itself, so that elements it rejects do not change that beginning.
-/

namespace TradeEngine.Lib

variable {α : Type} {r : α → α → Prop} [DecidableRel r] {p q : α → Bool}

section Filter

variable [IsTrans α r]

theorem filter_orderedInsert (a : α) {l : List α} (hl : l.Pairwise r) :
    (l.orderedInsert r a).filter p = if p a then (l.filter p).orderedInsert r a else l.filter p := by
  induction l with
  | nil => by_cases ha : p a <;> simp [ha]
  | cons b l ih =>
    rw [List.pairwise_cons] at hl
    by_cases hab : r a b
    · rw [List.orderedInsert_cons_of_le _ _ hab, List.filter_cons]
      split
      · -- everything the predicate keeps stands after what stands before it all
        have hall : ∀ c ∈ (b :: l).filter p, r a c := by
          intro c hc
          rcases List.mem_cons.1 (List.mem_of_mem_filter hc) with rfl | hc
          · exact hab
          · exact IsTrans.trans _ _ _ hab (hl.1 c hc)
        cases hrest : (b :: l).filter p with
        | nil => rfl
        | cons c rest => rw [List.orderedInsert_cons_of_le _ _ (hall c (hrest ▸ List.mem_cons_self))]
      · rfl
    · rw [List.orderedInsert_of_not_le _ _ hab, List.filter_cons, ih hl.2, List.filter_cons]
      by_cases hb : p b
      · by_cases ha : p a
        · simp only [hb, ha, if_true, List.orderedInsert_of_not_le _ _ hab]
        · simp [hb, ha]
      · simp only [hb, Bool.false_eq_true, if_false]

/-- What a stable sort keeps is what it makes of what is kept. -/
theorem filter_insertionSort [Std.Total r] (l : List α) :
    (l.insertionSort r).filter p = (l.filter p).insertionSort r := by
  induction l with
  | nil => rfl
  | cons a l ih =>
    rw [List.insertionSort_cons, filter_orderedInsert a (List.pairwise_insertionSort r l), ih, List.filter_cons]
    split
    · rfl
    · rfl

end Filter

omit [DecidableRel r] in
theorem takeWhile_eq_filter {l : List α} (hl : l.Pairwise r) (hp : ∀ a b, r a b → p b = true → p a = true) :
    l.takeWhile p = l.filter p := by
  induction l with
  | nil => rfl
  | cons a l ih =>
    rw [List.pairwise_cons] at hl
    rw [List.takeWhile_cons, List.filter_cons]
    split
    · rw [ih hl.2]
    · rename_i ha
      symm
      rw [List.filter_eq_nil_iff]
      intro b hb hpb
      exact ha (hp a b (hl.1 b hb) hpb)

/-- A narrower predicate stops before the end of what a wider one takes. -/
theorem takeWhile_drop {l : List α} {u : Nat} (hqp : ∀ a, q a = true → p a = true)
    (hu : u ≤ (l.takeWhile p).length) : (l.drop u).takeWhile q = ((l.takeWhile p).drop u).takeWhile q := by
  have hrest : (l.dropWhile p).takeWhile q = [] := by
    cases hd : l.dropWhile p with
    | nil => rfl
    | cons a rest =>
      have ha : p a = false := by
        have hne : l.dropWhile p ≠ [] := by rw [hd]; simp
        have hhead := List.head_dropWhile_not p hne
        simpa [hd] using hhead
      rw [List.takeWhile_cons_of_neg]
      intro hqa
      rw [hqp a hqa] at ha
      cases ha
  have hsplit : l.drop u = (l.takeWhile p).drop u ++ l.dropWhile p := by
    conv_lhs => rw [← List.takeWhile_append_dropWhile (p := p) (l := l)]
    exact List.drop_append_of_le_length hu
  rw [hsplit, List.takeWhile_append, hrest]
  split
  · rename_i hall
    rw [List.append_nil]
    exact ((List.takeWhile_prefix q).eq_of_length hall).symm
  · rfl

end TradeEngine.Lib
