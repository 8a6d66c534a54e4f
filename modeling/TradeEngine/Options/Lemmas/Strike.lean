import TradeEngine.Lib.Except
import TradeEngine.Money.Rounds
import TradeEngine.Options.Occ

/-!
# Strikes in thousandths

A strike that is a whole number of thousandths is read as that number, whatever its digits and exponent.
-/

namespace TradeEngine.DecWire

open Money

/-- The number a finite decimal stands for. -/
def value (w : DecWire) : ℚ := (if w.neg then -1 else 1) * (w.coefficient * 10 ^ w.exp)

variable {w : DecWire} {n c : ℕ} {e : ℤ}

theorem roundHalfEven_mul (m k : ℕ) : roundHalfEven (m * 10 ^ k) k = m := by
  have hd : 0 < 10 ^ k := by positivity
  simp only [roundHalfEven, shiftRoundBig, Nat.mul_div_cancel _ hd, Nat.sub_self, roundsUp, Nat.zero_mul]
  have hcmp : compare 0 (10 ^ k) = .lt := by
    rw [Nat.compare_eq_lt]
    exact hd
  rw [hcmp]
  rfl

theorem digits_mul_pow (hc : c ≠ 0) (k : ℕ) : digits (c * 10 ^ k) = digits c + k := by
  induction k with
  | zero => simp
  | succ k ih =>
    have hck : c * 10 ^ k ≠ 0 := by positivity
    rw [pow_succ, ← mul_assoc, ← Nat.add_assoc, ← ih, digits, digits, if_neg hck, if_neg (by positivity),
      Nat.log_mul_base (by norm_num) hck]

/-- Either the exponent writes zeros behind the coefficient, or the coefficient ends in as many zeros. -/
theorem whole_cases (h : (c : ℚ) * 10 ^ e = n) :
    (∃ k : ℕ, e = k ∧ n = c * 10 ^ k) ∨ ∃ k : ℕ, e = -k ∧ 0 < k ∧ c = n * 10 ^ k := by
  rcases le_or_gt 0 e with he | he
  · obtain ⟨k, rfl⟩ := Int.eq_ofNat_of_zero_le he
    refine .inl ⟨k, rfl, ?_⟩
    rw [zpow_natCast] at h
    exact_mod_cast h.symm
  · obtain ⟨k, hk⟩ := Int.eq_ofNat_of_zero_le (neg_nonneg.2 he.le)
    obtain rfl : e = -k := by omega
    refine .inr ⟨k, rfl, by omega, ?_⟩
    rw [zpow_neg, zpow_natCast, mul_inv_eq_iff_eq_mul₀ (by positivity)] at h
    exact_mod_cast h

/-- Digits and exponent together tell the size of a whole number. -/
theorem digits_add_exp (hn : n ≠ 0) (h : (c : ℚ) * 10 ^ e = n) : (digits c : ℤ) + e = digits n := by
  obtain ⟨k, rfl, rfl⟩ | ⟨k, rfl, -, rfl⟩ := whole_cases h
  · rw [digits_mul_pow (fun hc => hn (by simp [hc]))]
    push_cast
    ring
  · rw [digits_mul_pow hn]
    push_cast
    ring

theorem integralValue_eq (h : (c : ℚ) * 10 ^ e = n) (he : e ≤ 40) : integralValue c e = n := by
  obtain ⟨k, rfl, rfl⟩ | ⟨k, rfl, hk, rfl⟩ := whole_cases h
  · rw [integralValue, if_pos (Int.natCast_nonneg k), min_eq_left he, Int.toNat_natCast]
  · rw [integralValue, if_neg (by omega), neg_neg, Int.toNat_natCast, roundHalfEven_mul]

theorem isIntegral_eq (h : (c : ℚ) * 10 ^ e = n) : isIntegral c e = true := by
  obtain ⟨k, rfl, rfl⟩ | ⟨k, rfl, hk, rfl⟩ := whole_cases h
  · simp [isIntegral]
  · simp [isIntegral]

/-- The product is exact where it is a whole number of at most 28 digits. -/
theorem times1000_eq (hw : w.coefficient ≠ 0) (hn : n ≠ 0) (h : ((w.coefficient * 1000 : ℕ) : ℚ) * 10 ^ w.exp = n)
    (hdigits : digits n ≤ prec) : ∃ ce, w.times1000 = .ok ce ∧ (ce.1 : ℚ) * 10 ^ ce.2 = n := by
  have hsize := digits_add_exp hn h
  have hpos : 0 < digits n := by
    rw [digits, if_neg hn]
    exact Nat.succ_pos _
  have hprec : (prec : ℤ) = 28 := rfl
  have hdigits' : (digits n : ℤ) ≤ 28 := by exact_mod_cast hdigits
  have hmin : max ((digits (w.coefficient * 1000) : ℤ) + w.exp - prec) eTiny = digits n - 28 := by
    rw [hsize, hprec]
    exact max_eq_left (by simp only [eTiny, eMax, hprec]; omega)
  have hfits : ∀ {c' : ℕ} {e' : ℤ}, (c' : ℚ) * 10 ^ e' = n → ¬ (c' ≠ 0 ∧ (digits c' : ℤ) + e' - 1 > eMax) := by
    intro c' e' h' hover
    rw [digits_add_exp hn h'] at hover
    simp only [eMax] at hover
    omega
  unfold times1000
  rw [if_neg hw]
  dsimp only
  rw [if_neg (by rw [hsize, hprec]; simp only [eTop, eMax, hprec]; omega), hmin]
  by_cases hround : w.exp < digits n - 28
  · obtain ⟨k, hk, -⟩ | ⟨k, hk, -, hck⟩ := whole_cases h
    · omega
    · -- the digits dropped are zeros
      obtain ⟨j, hj⟩ : ∃ j : ℕ, 28 = digits n + j := Nat.exists_eq_add_of_le (by exact_mod_cast hdigits')
      obtain ⟨i, rfl⟩ : ∃ i : ℕ, k = j + i := Nat.exists_eq_add_of_le (by omega)
      have hdrop : ((digits n : ℤ) - 28 - w.exp).toNat = i := by omega
      have hexact : roundHalfEven (w.coefficient * 1000) i = n * 10 ^ j := by
        rw [hck, pow_add, ← mul_assoc, roundHalfEven_mul]
      have hval : ((n * 10 ^ j : ℕ) : ℚ) * 10 ^ ((digits n : ℤ) - 28) = n := by
        have hexp : (digits n : ℤ) - 28 = -j := by omega
        rw [hexp, zpow_neg, zpow_natCast]
        push_cast
        field_simp
      have hlen : ¬ digits (n * 10 ^ j) > prec := by
        rw [digits_mul_pow hn, ← hj]
        exact lt_irrefl _
      rw [if_pos hround, hdrop, hexact, fitDigits, if_neg hlen, if_neg (hfits hval)]
      exact ⟨_, rfl, hval⟩
  · rw [if_neg hround, if_neg (hfits h)]
    exact ⟨_, rfl, h⟩

/-- The product rounded to 28 digits, or as it is. -/
theorem times1000_ok {ce : ℕ × ℤ} (hw : w.coefficient ≠ 0) (h : w.times1000 = .ok ce) {low : ℤ}
    (hlow : max ((digits (w.coefficient * 1000) : ℤ) + w.exp - prec) eTiny = low) :
    (w.exp < low ∧ ce = fitDigits (roundHalfEven (w.coefficient * 1000) (low - w.exp).toNat) low) ∨
      (low ≤ w.exp ∧ ce = (w.coefficient * 1000, w.exp)) := by
  unfold times1000 at h
  rw [if_neg hw] at h
  dsimp only at h
  split_ifs at h with htop
  · rw [hlow] at h
    exact .inl ⟨by omega, (Except.ok.inj h).symm⟩
  · exact .inr ⟨by omega, (Except.ok.inj h).symm⟩

/-- A product of more than 28 digits stays far beyond the bound. -/
theorem le_integralValue {ce : ℕ × ℤ} (hw : w.coefficient ≠ 0) (hn : n ≠ 0)
    (h : ((w.coefficient * 1000 : ℕ) : ℚ) * 10 ^ w.exp = n) (hdigits : prec < digits n) (hce : w.times1000 = .ok ce) :
    10 ^ 27 ≤ integralValue ce.1 ce.2 := by
  have hsize := digits_add_exp hn h
  have hprec : (prec : ℤ) = 28 := rfl
  have hdigits' : 28 < (digits n : ℤ) := by exact_mod_cast hdigits
  have hlow := pow_digits_le (n := w.coefficient * 1000) (by positivity)
  have hhigh := lt_pow_digits (w.coefficient * 1000)
  have hmin : max ((digits (w.coefficient * 1000) : ℤ) + w.exp - prec) eTiny = digits n - 28 := by
    rw [hsize, hprec]
    exact max_eq_left (by simp only [eTiny, eMax, hprec]; omega)
  have hge : ∀ {c' : ℕ} {e' : ℤ}, 10 ^ 27 ≤ c' → 0 ≤ e' → 10 ^ 27 ≤ integralValue c' e' := by
    intro c' e' hc' he'
    rw [integralValue, if_pos he']
    exact hc'.trans (Nat.le_mul_of_pos_right _ (by positivity))
  obtain ⟨hround, rfl⟩ | ⟨hround, rfl⟩ := times1000_ok hw hce hmin
  · obtain ⟨i, hi⟩ : ∃ i : ℕ, digits (w.coefficient * 1000) = i + 28 := Nat.exists_eq_add_of_le' (by omega)
    have hdrop : ((digits n : ℤ) - 28 - w.exp).toNat = i := by omega
    rw [hi] at hlow hhigh
    have hbounds := shiftRoundBig_bounds (k := i) (p := 27) false hlow hhigh
    change 10 ^ 27 ≤ roundHalfEven (w.coefficient * 1000) i ∧ _ at hbounds
    rw [hdrop]
    generalize roundHalfEven (w.coefficient * 1000) i = r at hbounds
    have hfit : 10 ^ 27 ≤ (fitDigits r (digits n - 28)).1 ∧ 0 ≤ (fitDigits r (digits n - 28)).2 := by
      unfold fitDigits
      split_ifs with hlong
      · have hpos : 0 < r := lt_of_lt_of_le (by norm_num) hbounds.1
        have hr : 10 ^ 28 ≤ r :=
          (Nat.pow_le_pow_right (by norm_num) (Nat.le_pred_of_lt hlong)).trans (pow_digits_le hpos.ne')
        exact ⟨le_trans (by norm_num) (Nat.div_le_div_right (c := 10) hr), by omega⟩
      · exact ⟨hbounds.1, by omega⟩
    exact hge hfit.1 hfit.2
  · obtain ⟨k, hk, hnk⟩ | ⟨k, hk, -, -⟩ := whole_cases h
    · rw [hk, integralValue, if_pos (Int.natCast_nonneg k)]
      dsimp only
      rcases le_total k 40 with hle | hle
      · have hbig := pow_digits_le hn
        rw [min_eq_left (by exact_mod_cast hle), Int.toNat_natCast, ← hnk]
        exact (Nat.pow_le_pow_right (by norm_num) (by omega)).trans hbig
      · rw [min_eq_right (by exact_mod_cast hle)]
        calc 10 ^ 27 ≤ 1 * 10 ^ 40 := by norm_num
          _ ≤ w.coefficient * 1000 * 10 ^ 40 := Nat.mul_le_mul_right _ (Nat.one_le_iff_ne_zero.2 (by positivity))
    · omega

theorem strikeMillis_ok {m : ℕ} (h : w.strikeMillis = .ok m) :
    ∃ ce, w.times1000 = .ok ce ∧ m = integralValue ce.1 ce.2 ∧ 0 < m ∧ m ≤ 99999999 := by
  obtain ⟨ce, hce, h⟩ := Lib.bind_eq_ok.1 h
  dsimp only at h
  split_ifs at h with hout
  rw [Lib.pure_eq_ok] at h
  exact ⟨ce, hce, h.symm, by omega, by omega⟩

/-- A strike of a whole number of thousandths in bounds is read as that number. -/
theorem strikeMillis_eq (hw : w.coefficient ≠ 0) (h : ((w.coefficient * 1000 : ℕ) : ℚ) * 10 ^ w.exp = n) (hn : n ≠ 0)
    (hle : n ≤ 99999999) : w.strikeMillis = .ok n ∧ ∃ ce, w.times1000 = .ok ce ∧ isIntegral ce.1 ce.2 = true := by
  have hdigits : digits n ≤ 8 := digits_le (by norm_num) (by omega)
  obtain ⟨ce, hce, hval⟩ := times1000_eq hw hn h (hdigits.trans (by decide))
  have hsize := digits_add_exp hn hval
  have hint := integralValue_eq hval (by omega)
  refine ⟨?_, ce, hce, isIntegral_eq hval⟩
  unfold strikeMillis
  rw [hce, Lib.ok_bind, hint]
  dsimp only
  rw [if_neg (by omega)]
  rfl

/-- An admitted strike that is a whole number of thousandths is read as that number. -/
theorem strikeMillis_of_valid (h : w.validateStrike = .ok ()) (hval : w.value * 1000 = n) : w.strikeMillis = .ok n := by
  unfold validateStrike at h
  dsimp only at h
  split_ifs at h with hbad
  obtain ⟨hfinite, hneg, hw⟩ : w.special = .finite ∧ w.neg = false ∧ w.coefficient ≠ 0 := by
    simpa [not_or] using hbad
  have hwhole : ((w.coefficient * 1000 : ℕ) : ℚ) * 10 ^ w.exp = n := by
    rw [← hval, value, hneg]
    push_cast
    simp
    ring
  have hn : n ≠ 0 := by
    rintro rfl
    have hzero : ((w.coefficient * 1000 : ℕ) : ℚ) * 10 ^ w.exp ≠ 0 := by positivity
    exact hzero (by exact_mod_cast hwhole)
  obtain ⟨ce, hce, h⟩ := Lib.bind_eq_ok.1 h
  split_ifs at h
  obtain ⟨m, hm, -⟩ : ∃ m, w.strikeMillis = .ok m ∧ True := by
    cases hm : w.strikeMillis with
    | ok m => exact ⟨m, rfl, trivial⟩
    | error e =>
      rw [hm] at h
      cases h
  obtain ⟨ce', hce', hmval, -, hle⟩ := strikeMillis_ok hm
  have hdigits : digits n ≤ prec := by
    by_contra hlong
    have hbig := le_integralValue hw hn hwhole (not_le.1 hlong) hce'
    omega
  obtain ⟨ce'', hce'', hexact⟩ := times1000_eq hw hn hwhole hdigits
  obtain rfl : ce'' = ce' := Except.ok.inj (hce''.symm.trans hce')
  have hsize := digits_add_exp hn hexact
  have hprec : (prec : ℤ) = 28 := rfl
  have hint := integralValue_eq hexact (by omega)
  rw [hm, hmval, hint]

end TradeEngine.DecWire
