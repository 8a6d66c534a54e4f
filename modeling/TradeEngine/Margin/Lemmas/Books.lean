import TradeEngine.Lib.Except
import TradeEngine.Margin.Partition

/-!
# Books and what is taken from them

A book is known by the quantity of each contract; taking legs out of it subtracts them.
-/

namespace TradeEngine.Margin

open Lib

variable {n : Nat} {D : Type}

/-! ## Checked quantities -/

theorem checked_ok {k : Int} {a : Int64} : checked k = .ok a ↔ a.toInt = k := by
  unfold checked
  constructor
  · intro h
    split at h
    · next hk =>
        cases h
        exact Int64.toInt_ofInt_of_le hk.1 hk.2
    · cases h
  · rintro rfl
    rw [if_pos ⟨a.le_toInt, a.toInt_lt⟩, Int64.ofInt_toInt]

theorem checked_of_bounds {k : Int} (h : -2 ^ 63 ≤ k) (h' : k < 2 ^ 63) : ∃ a, checked k = .ok a :=
  ⟨.ofInt k, checked_ok.mpr (Int64.toInt_ofInt_of_le h h')⟩

@[simp] theorem lift_ok {α : Type} {x : Result α} {a : α} : Stop.lift x = .ok a ↔ x = .ok a :=
  except_mapError_eq_ok

theorem lift_of_ok {α : Type} (a : α) : Stop.lift (.ok a) = .ok a := rfl

/-! ## Parts -/

namespace Part

variable {p q w : Int}

theorem zero (w : Int) : Part 0 w := by
  unfold Part
  omega

theorem refl (w : Int) : Part w w := by
  unfold Part
  omega

theorem trans (h : Part p q) (h' : Part q w) : Part p w := by
  unfold Part at *
  omega

theorem rest (h : Part p w) : Part (w - p) w := by
  unfold Part at *
  omega

theorem natAbs_le (h : Part p w) : p.natAbs ≤ w.natAbs := by
  unfold Part at h
  omega

theorem of_mul {units : Int} (hu : 0 < units) (h : Part (p * units) w) : Part p w := by
  refine Part.trans ?_ h
  unfold Part
  rcases le_total 0 p with hp | hp
  · exact Or.inl ⟨hp, le_mul_of_one_le_right hp hu⟩
  · exact Or.inr ⟨mul_le_of_one_le_right hp hu, hp⟩

theorem eq_zero (h : Part p 0) : p = 0 := by
  unfold Part at h
  omega

/-- Both sides of the difference are narrower than `i64`. -/
theorem checked_rest {a b : Int64} (h : Part b.toInt a.toInt) : ∃ r, checked (a.toInt - b.toInt) = .ok r := by
  have := a.le_toInt
  have := a.toInt_lt
  unfold Part at h
  exact checked_of_bounds (by omega) (by omega)

end Part

/-! ## Quantities -/

namespace Book

variable {b : Book n} {c : Fin n} {q : Int64}

theorem find_of_mem {l : List (Fin n × Int64)} (hl : (l.map (·.1)).Nodup) (h : (c, q) ∈ l) :
    l.find? (·.1 = c) = some (c, q) := by
  induction l with
  | nil => cases h
  | cons e l ih =>
      simp only [List.map_cons, List.nodup_cons] at hl
      rcases List.mem_cons.mp h with rfl | h
      · simp
      · have hne : e.1 ≠ c := fun he => hl.1 (he ▸ List.mem_map_of_mem h)
        rw [List.find?_cons_of_neg (by simpa using hne)]
        exact ih hl.2 h

theorem qtyOf_of_mem (h : (c, q) ∈ b.entries) : b.qtyOf c = q := by
  simp [qtyOf, find_of_mem b.once h]

theorem qtyOf_of_notMem (h : c ∉ b.entries.map (·.1)) : b.qtyOf c = 0 := by
  have hfind : b.entries.find? (·.1 = c) = none := by
    rw [List.find?_eq_none]
    intro e he hc
    exact h (List.mem_map.mpr ⟨e, he, by simpa using hc⟩)
  simp [qtyOf, hfind]

theorem mem_of_qtyOf (h : (b.qtyOf c).toInt ≠ 0) : (c, b.qtyOf c) ∈ b.entries := by
  by_cases hc : c ∈ b.entries.map (·.1)
  · obtain ⟨⟨c', q⟩, he, rfl⟩ := List.mem_map.mp hc
    rwa [qtyOf_of_mem he]
  · exact absurd (by rw [qtyOf_of_notMem hc]; rfl) h

theorem qtyOf_set (hc : c ∈ b.entries.map (·.1)) (c' : Fin n) :
    (b.set c q).qtyOf c' = if c' = c then q else b.qtyOf c' := by
  obtain ⟨⟨_, old⟩, he, rfl⟩ := List.mem_map.mp hc
  dsimp only at *
  split
  · next h =>
      subst h
      exact qtyOf_of_mem (List.mem_map.mpr ⟨_, he, by simp [setEntry]⟩)
  · next h =>
      by_cases hc' : c' ∈ b.entries.map (·.1)
      · obtain ⟨⟨_, q'⟩, he', rfl⟩ := List.mem_map.mp hc'
        rw [qtyOf_of_mem he']
        exact qtyOf_of_mem (List.mem_map.mpr ⟨_, he', by rw [setEntry, if_neg h]⟩)
      · rw [qtyOf_of_notMem hc', qtyOf_of_notMem]
        rw [set, map_setEntry_fst]
        exact hc'

@[simp] theorem qtyOf_retain (b : Book n) (c : Fin n) : b.retain.qtyOf c = b.qtyOf c := by
  by_cases h : (b.qtyOf c).toInt = 0
  · have hzero : b.qtyOf c = 0 := Int64.toInt_inj.mp h
    rw [hzero]
    apply qtyOf_of_notMem
    intro hc
    obtain ⟨⟨_, q⟩, he, rfl⟩ := List.mem_map.mp hc
    obtain ⟨he, hq⟩ := List.mem_filter.mp he
    rw [qtyOf_of_mem he] at hzero
    simp [hzero] at hq
  · exact qtyOf_of_mem (List.mem_filter.mpr ⟨mem_of_qtyOf h, by simpa using h⟩)

@[simp] theorem qtyOf_sorted [LinearOrder D] (ctx : Fin n → Contract D) (b : Book n) (c : Fin n) :
    (b.sorted ctx).qtyOf c = b.qtyOf c := by
  by_cases h : c ∈ b.entries.map (·.1)
  · obtain ⟨⟨_, q⟩, he, rfl⟩ := List.mem_map.mp h
    rw [qtyOf_of_mem he]
    exact qtyOf_of_mem ((List.perm_insertionSort _ _).mem_iff.mpr he)
  · rw [qtyOf_of_notMem h, qtyOf_of_notMem]
    intro hc
    exact h (((List.perm_insertionSort _ _).map _).mem_iff.mp hc)

theorem mem_held [LinearOrder D] {ctx : Fin n → Contract D} : c ∈ b.held ctx ↔ (b.qtyOf c).toInt ≠ 0 := by
  rw [held, List.mem_insertionSort, List.mem_map]
  constructor
  · rintro ⟨⟨_, q⟩, he, rfl⟩
    obtain ⟨he, hq⟩ := List.mem_filter.mp he
    rw [qtyOf_of_mem he]
    simpa using hq
  · intro h
    exact ⟨_, List.mem_filter.mpr ⟨mem_of_qtyOf h, by simpa using h⟩, rfl⟩

theorem all_zero : b.entries.all (·.2.toInt = 0) = true ↔ ∀ c, (b.qtyOf c).toInt = 0 := by
  simp only [List.all_eq_true, decide_eq_true_eq]
  constructor
  · intro h c
    by_contra hc
    exact hc (h _ (mem_of_qtyOf hc))
  · intro h e he
    rw [← qtyOf_of_mem he]
    exact h e.1

theorem size_eq_sum (b : Book n) : b.size = ∑ c, (b.qtyOf c).toInt.natAbs := by
  obtain ⟨l, hl⟩ := b
  simp only [size, qtyOf]
  induction l with
  | nil => simp
  | cons e l ih =>
      simp only [List.map_cons, List.nodup_cons] at hl
      have hnone : l.find? (·.1 = e.1) = none := by
        rw [List.find?_eq_none]
        intro x hx hc
        exact hl.1 (List.mem_map.mpr ⟨x, hx, by simpa using hc⟩)
      -- the new entry is the only one of its contract
      have hsplit : ∀ c : Fin n, (Option.map Prod.snd ((e :: l).find? (·.1 = c)) |>.getD 0).toInt.natAbs =
          (if e.1 = c then e.2.toInt.natAbs else 0) +
            (Option.map Prod.snd (l.find? (·.1 = c)) |>.getD 0).toInt.natAbs := by
        intro c
        by_cases hc : e.1 = c
        · subst hc
          simp [hnone]
        · simp [hc]
      simp only [hsplit, Finset.sum_add_distrib, Finset.sum_ite_eq, Finset.mem_univ, if_true,
        List.map_cons, List.sum_cons, ih hl.2]

/-! ## Taking legs -/

theorem take_cons {leg : Fin n × Int64} {legs : List (Fin n × Int64)} {b' : Book n}
    (h : b.take (leg :: legs) = .ok b') :
    leg.1 ∈ b.entries.map (·.1) ∧ ∃ q, q.toInt = (b.qtyOf leg.1).toInt - leg.2.toInt ∧
      (b.set leg.1 q).take legs = .ok b' := by
  simp only [take, List.foldlM_cons, bind_eq_ok] at h
  obtain ⟨mid, h, hrest⟩ := h
  split at h
  · next hmem =>
      simp only [bind_eq_ok, lift_ok, checked_ok, pure_eq_ok] at h
      obtain ⟨q, hq, rfl⟩ := h
      exact ⟨hmem, q, hq, hrest⟩
  · cases h

theorem take_qtyOf {legs : List (Fin n × Int64)} {b' : Book n} (h : b.take legs = .ok b') (c : Fin n) :
    uses legs c + (b'.qtyOf c).toInt = (b.qtyOf c).toInt := by
  induction legs generalizing b with
  | nil =>
      cases h
      simp [uses]
  | cons leg legs ih =>
      obtain ⟨hmem, q, hq, h⟩ := take_cons h
      have hstep := ih h
      rw [qtyOf_set hmem] at hstep
      simp only [uses, List.map_cons, List.sum_cons] at hstep ⊢
      by_cases hc : c = leg.1
      · subst hc
        rw [if_pos rfl, hq] at hstep
        rw [if_pos rfl]
        omega
      · rw [if_neg hc] at hstep
        rw [if_neg (Ne.symm hc)]
        omega

theorem take_ok {legs : List (Fin n × Int64)} (hl : (legs.map (·.1)).Nodup)
    (hp : ∀ l ∈ legs, l.2.toInt ≠ 0 ∧ Part l.2.toInt (b.qtyOf l.1).toInt) : ∃ b', b.take legs = .ok b' := by
  induction legs generalizing b with
  | nil => exact ⟨b, rfl⟩
  | cons leg legs ih =>
      simp only [List.map_cons, List.nodup_cons] at hl
      obtain ⟨hne, hpart⟩ := hp leg List.mem_cons_self
      have hq : (b.qtyOf leg.1).toInt ≠ 0 := by
        intro hzero
        exact hne (hzero ▸ hpart).eq_zero
      have hmem : leg.1 ∈ b.entries.map (·.1) := List.mem_map.mpr ⟨_, mem_of_qtyOf hq, rfl⟩
      obtain ⟨q, hcheck⟩ := hpart.checked_rest
      have hrest : ∀ l ∈ legs, l.2.toInt ≠ 0 ∧ Part l.2.toInt ((b.set leg.1 q).qtyOf l.1).toInt := by
        intro l hlm
        have hdiff : l.1 ≠ leg.1 := fun he => hl.1 (he ▸ List.mem_map_of_mem hlm)
        rw [qtyOf_set hmem, if_neg hdiff]
        exact hp l (List.mem_cons_of_mem _ hlm)
      obtain ⟨b', hb'⟩ := ih hl.2 hrest
      refine ⟨b', ?_⟩
      simp only [take, List.foldlM_cons, bind_eq_ok]
      refine ⟨b.set leg.1 q, ?_, hb'⟩
      rw [if_pos hmem]
      simpa using ⟨q, hcheck, rfl⟩

end Book

end TradeEngine.Margin
