import TradeEngine.Ledger.Time

/-!
# The order of dates

Dates in the order of their day numbers, which the next day follows without a gap.
-/

namespace TradeEngine.Calendar

/-- The days of a year before one of its months. -/
def daysBefore (year : Int) (month : Nat) : Nat := ((List.range (month - 1)).map fun i => daysInMonth year (i + 1)).sum

/-- Days before the first of January. -/
def yearStart (year : Int) : Int := (year - 1) * 365 + (year - 1) / 4 - (year - 1) / 100 + (year - 1) / 400

theorem numDaysFromCe_eq (d : NaiveDate) : d.numDaysFromCe = yearStart d.year + daysBefore d.year d.month + d.day := rfl

theorem daysInMonth_le (year : Int) (month : Nat) : daysInMonth year month ≤ 31 := by
  unfold daysInMonth
  repeat' split
  all_goals decide

theorem daysBefore_succ (year : Int) {month : Nat} (h : 1 ≤ month) :
    daysBefore year (month + 1) = daysBefore year month + daysInMonth year month := by
  obtain ⟨m, rfl⟩ := Nat.exists_eq_add_of_le' h
  simp [daysBefore, List.range_succ]

theorem daysBefore_mono (year : Int) : Monotone (daysBefore year) := by
  apply monotone_nat_of_le_succ
  intro month
  cases month with
  | zero => exact le_rfl
  | succ m =>
    rw [daysBefore_succ year (Nat.le_add_left 1 m)]
    exact Nat.le_add_right _ _

/-- A year ends where the next one starts. -/
theorem yearStart_succ (year : Int) : yearStart (year + 1) = yearStart year + daysBefore year 12 + 31 := by
  have hsum : daysBefore year 12 = 306 + daysInMonth year 2 := by
    simp only [daysBefore, List.range_succ, List.range_zero, List.map_append, List.map_cons, List.map_nil, List.sum_append,
      List.sum_cons, List.sum_nil, List.nil_append]
    simp only [daysInMonth]
    norm_num
    omega
  have hfeb : daysInMonth year 2 = if year % 4 = 0 ∧ (year % 100 ≠ 0 ∨ year % 400 = 0) then 29 else 28 := by
    simp [daysInMonth]
  rw [hsum, hfeb]
  unfold yearStart
  split_ifs with hleap
  · push_cast
    omega
  · push_cast
    omega

theorem yearStart_mono : Monotone yearStart := by
  apply monotone_int_of_le_succ
  intro year
  rw [yearStart_succ]
  omega

theorem numDaysFromCe_next (d : NaiveDate) : d.next.numDaysFromCe = d.numDaysFromCe + 1 := by
  obtain ⟨y, m, k, hm, hk⟩ := d
  simp only [numDaysFromCe_eq]
  unfold NaiveDate.next
  split_ifs with hday hmonth
  · push_cast
    ring
  · have hlast : k = daysInMonth y m := le_antisymm hk.2 (not_lt.1 hday)
    rw [daysBefore_succ y hm.1]
    push_cast
    omega
  · obtain rfl : m = 12 := le_antisymm hm.2 (not_lt.1 hmonth)
    have hlast : k = daysInMonth y 12 := le_antisymm hk.2 (not_lt.1 hday)
    have hdec : daysInMonth y 12 = 31 := rfl
    have hjan : daysBefore (y + 1) 1 = 0 := rfl
    simp only [yearStart_succ, hjan]
    push_cast
    omega

theorem numDaysFromCe_previous (d : NaiveDate) : d.previous.numDaysFromCe = d.numDaysFromCe - 1 := by
  obtain ⟨y, m, k, hm, hk⟩ := d
  simp only [numDaysFromCe_eq]
  unfold NaiveDate.previous
  split_ifs with hday hmonth
  · simp only
    omega
  · have hpred : 1 ≤ m - 1 := Nat.le_pred_of_lt hmonth
    have hsucc := daysBefore_succ y hpred
    rw [Nat.sub_add_cancel hm.1] at hsucc
    simp only at hday ⊢
    omega
  · have hjanuary : m = 1 := le_antisymm (not_lt.1 hmonth) hm.1
    have hdec : daysInMonth (y - 1) 12 = 31 := rfl
    have hjan : daysBefore y m = 0 := by rw [hjanuary]; rfl
    have hyear := yearStart_succ (y - 1)
    rw [sub_add_cancel] at hyear
    simp only [hjan, hdec] at hday ⊢
    omega

/-- A date lies in its own year. -/
theorem numDaysFromCe_mem (d : NaiveDate) : yearStart d.year < d.numDaysFromCe ∧ d.numDaysFromCe ≤ yearStart (d.year + 1) := by
  have hmonth := daysBefore_mono d.year d.month_mem.2
  have hday := d.day_mem
  rw [numDaysFromCe_eq, yearStart_succ]
  rcases d.month_mem.2.lt_or_eq with hlt | heq
  · have hnext := daysBefore_mono d.year (Nat.succ_le_of_lt hlt)
    rw [Nat.succ_eq_add_one, daysBefore_succ d.year d.month_mem.1] at hnext
    omega
  · have hlast : daysInMonth d.year d.month ≤ 31 := daysInMonth_le _ _
    omega

theorem numDaysFromCe_injective : Function.Injective NaiveDate.numDaysFromCe := by
  intro d e h
  have hd := numDaysFromCe_mem d
  have he := numDaysFromCe_mem e
  have hyear : d.year = e.year := by
    rcases lt_trichotomy d.year e.year with hlt | heq | hgt
    · have := yearStart_mono (Int.add_one_le_of_lt hlt)
      omega
    · exact heq
    · have := yearStart_mono (Int.add_one_le_of_lt hgt)
      omega
  obtain ⟨y, m, k, hm, hk⟩ := d
  obtain ⟨y', m', k', hm', hk'⟩ := e
  obtain rfl : y = y' := hyear
  simp only [numDaysFromCe_eq] at h
  have hmonth : m = m' := by
    rcases lt_trichotomy m m' with hlt | heq | hgt
    · have hle := daysBefore_mono y (Nat.succ_le_of_lt hlt)
      rw [Nat.succ_eq_add_one, daysBefore_succ y hm.1] at hle
      omega
    · exact heq
    · have hle := daysBefore_mono y (Nat.succ_le_of_lt hgt)
      rw [Nat.succ_eq_add_one, daysBefore_succ y hm'.1] at hle
      omega
  subst hmonth
  obtain rfl : k = k' := by omega
  rfl

scoped instance : LinearOrder NaiveDate := LinearOrder.lift' NaiveDate.numDaysFromCe numDaysFromCe_injective

theorem lt_iff {d e : NaiveDate} : d < e ↔ d.numDaysFromCe < e.numDaysFromCe := Iff.rfl

theorem le_iff {d e : NaiveDate} : d ≤ e ↔ d.numDaysFromCe ≤ e.numDaysFromCe := Iff.rfl

theorem lt_next (d : NaiveDate) : d < d.next := by
  rw [lt_iff, numDaysFromCe_next]
  exact lt_add_one _

theorem next_le_iff {d e : NaiveDate} : d.next ≤ e ↔ d < e := by
  rw [le_iff, lt_iff, numDaysFromCe_next]
  exact Int.add_one_le_iff

theorem numDaysFromCe_shift (d : NaiveDate) (n : Int) : (d.shift n).numDaysFromCe = d.numDaysFromCe + n := by
  have hnext : ∀ k : Nat, (NaiveDate.next^[k] d).numDaysFromCe = d.numDaysFromCe + k := by
    intro k
    induction k with
    | zero => simp
    | succ k ih =>
      rw [Function.iterate_succ_apply', numDaysFromCe_next, ih]
      push_cast
      ring
  have hprevious : ∀ k : Nat, (NaiveDate.previous^[k] d).numDaysFromCe = d.numDaysFromCe - k := by
    intro k
    induction k with
    | zero => simp
    | succ k ih =>
      rw [Function.iterate_succ_apply', numDaysFromCe_previous, ih]
      push_cast
      ring
  unfold NaiveDate.shift
  split_ifs with h
  · rw [hnext]
    omega
  · rw [hprevious]
    omega

end TradeEngine.Calendar
