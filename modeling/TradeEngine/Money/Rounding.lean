import TradeEngine.Money.Arith

/-!
# Rounded quotients

A quotient lies on a decimal grid that is fine for its size, and less than one step of the grid from
the exact value. A grid that fine holds every integer, so rounding never crosses one.
-/

namespace TradeEngine

open Lib

/-- `y` stands for `x` on a grid of step `10 ^ g`: the step is `10⁻²⁸` or finer, or `y` has 28 digits
of it. -/
def Rounded (x y : ℚ) : Prop :=
  ∃ (g : ℤ) (m : ℕ), y = m * 10 ^ g ∧ |y - x| < 10 ^ g ∧ (g ≤ -28 ∨ 10 ^ 27 * 10 ^ g ≤ y)

namespace Money

/-! ## Rounding off digits -/

theorem near_of_up {c d q r : Nat} {up : Prop} [Decidable up] (hc : c = q * d + r) (hup : up → d ≤ 2 * r)
    (hdown : ¬ up → 2 * r ≤ d) (hr : r < d) :
    2 * |((q + if up then 1 else 0 : Nat) : ℤ) * d - c| ≤ d := by
  subst hc
  split
  · rename_i h
    have hle := hup h
    have heq : ((q + 1 : Nat) : ℤ) * d - (q * d + r : Nat) = d - r := by
      push_cast
      ring
    rw [heq, abs_of_nonneg (by omega)]
    omega
  · rename_i h
    have hle := hdown h
    have heq : ((q + 0 : Nat) : ℤ) * d - (q * d + r : Nat) = -r := by
      push_cast
      ring
    rw [heq, abs_neg, Nat.abs_cast]
    omega

theorem shiftRoundBig_near (c k : Nat) (neg : Bool) :
    2 * |(shiftRoundBig c k neg .halfEven : ℤ) * (10 ^ k : Nat) - c| ≤ (10 ^ k : Nat) := by
  have hr : c - c / 10 ^ k * 10 ^ k = c % 10 ^ k := by
    rw [Nat.mul_comm, Nat.sub_eq_iff_eq_add (Nat.mul_div_le c _)]
    exact (Nat.mod_add_div c (10 ^ k)).symm
  have hlt : c % 10 ^ k < 10 ^ k := Nat.mod_lt _ (by positivity)
  have hshift : shiftRoundBig c k neg .halfEven = c / 10 ^ k +
      if roundsUp (c / 10 ^ k) (c % 10 ^ k) (10 ^ k) neg .halfEven = true then 1 else 0 := by
    simp only [shiftRoundBig, hr]
    split <;> rfl
  rw [hshift]
  refine near_of_up (Nat.div_add_mod' c _).symm (fun hup => ?_) (fun hup => ?_) hlt
  · unfold roundsUp at hup
    dsimp only at hup
    split at hup
    · rename_i hcmp
      rw [compare_gt_iff_gt] at hcmp
      omega
    · rename_i hcmp
      rw [compare_eq_iff_eq] at hcmp
      omega
    · cases hup
  · unfold roundsUp at hup
    dsimp only at hup
    split at hup
    · exact absurd rfl hup
    · rename_i hcmp
      rw [compare_eq_iff_eq] at hcmp
      omega
    · rename_i hcmp
      rw [compare_lt_iff_lt] at hcmp
      omega

theorem shiftRoundU128_near {c k : Nat} (neg : Bool) (hk : k ≤ 38) :
    2 * |(shiftRoundU128 c k neg .halfEven : ℤ) * (10 ^ k : Nat) - c| ≤ (10 ^ k : Nat) := by
  have hlt : c % 10 ^ k < 10 ^ k := Nat.mod_lt _ (by positivity)
  have hpow : 10 ^ k ≤ 10 ^ 38 := Nat.pow_le_pow_right (by omega) hk
  -- twice a remainder below `10^38` fits
  have htwice : checkedMul (c % 10 ^ k) 2 = some (c % 10 ^ k * 2) := if_pos (by omega)
  unfold shiftRoundU128
  rw [if_neg (by omega)]
  simp only [htwice, Option.map_some]
  refine near_of_up (Nat.div_add_mod' c _).symm (fun hup => ?_) (fun hup => ?_) hlt
  · split at hup
    · rename_i hcmp
      rw [Option.some.injEq, compare_gt_iff_gt] at hcmp
      omega
    · rename_i hcmp
      cases hcmp
    · rename_i hcmp
      rw [Option.some.injEq, compare_eq_iff_eq] at hcmp
      omega
    · cases hup
  · split at hup
    · exact absurd rfl hup
    · exact absurd rfl hup
    · rename_i hcmp
      rw [Option.some.injEq, compare_eq_iff_eq] at hcmp
      omega
    · rename_i hcmp
      rw [Option.some.injEq, compare_lt_iff_lt] at hcmp
      omega

theorem lt_pow_digits (n : Nat) : n < 10 ^ digits n := by
  unfold digits
  split
  · omega
  · exact Nat.lt_pow_succ_log_self (by omega) n

theorem pow_digits_le {n : Nat} (h : n ≠ 0) : 10 ^ (digits n - 1) ≤ n := by
  rw [digits, if_neg h, Nat.add_sub_cancel]
  exact Nat.pow_log_le_self 10 h

theorem digits_le {n k : Nat} (hk : 0 < k) (h : n < 10 ^ k) : digits n ≤ k := by
  unfold digits
  split
  · exact hk
  · rename_i hn
    exact Nat.log_lt_of_lt_pow hn h

/-- Rounding to 28 digits: a mantissa of 28 digits on the grid of the digits dropped. -/
theorem toPrec_near {c : Nat} {e : ℤ} (neg : Bool) (hc : prec < digits c) :
    ∃ m : ℕ, 10 ^ 27 ≤ m ∧
      ((toPrec shiftRoundBig neg c e).1 : ℚ) * 10 ^ (toPrec shiftRoundBig neg c e).2 =
        m * 10 ^ (e + (digits c - prec : ℕ)) ∧
      2 * |(m : ℤ) * (10 ^ (digits c - prec) : ℕ) - c| ≤ (10 ^ (digits c - prec) : ℕ) ∧
      digits (toPrec shiftRoundBig neg c e).1 ≤ prec ∧
      e + (digits c - prec : ℕ) ≤ (toPrec shiftRoundBig neg c e).2 := by
  have hnear := shiftRoundBig_near c (digits c - prec) neg
  generalize hr : shiftRoundBig c (digits c - prec) neg .halfEven = r at hnear
  obtain ⟨k, hk⟩ : ∃ k, digits c = k + prec := ⟨digits c - prec, by omega⟩
  have hsub : digits c - prec = k := by omega
  rw [hsub] at hnear hr ⊢
  have hlo : 10 ^ 27 * 10 ^ k ≤ c := by
    have hle := pow_digits_le (n := c) (by rintro rfl; simp [digits, prec] at hc)
    rwa [hk, show k + prec - 1 = 27 + k by simp only [prec]; omega, pow_add] at hle
  have hhi : c < 10 ^ 28 * 10 ^ k := by
    have hlt := lt_pow_digits c
    rwa [hk, show k + prec = 28 + k from Nat.add_comm _ _, pow_add] at hlt
  obtain ⟨habs1, habs2⟩ := abs_le.mp (le_trans (by omega : |(r : ℤ) * (10 ^ k : ℕ) - c| ≤ (10 ^ k : ℕ) / 2)
    le_rfl)
  generalize hd : 10 ^ k = d at *
  have hd0 : 0 < d := by rw [← hd]; positivity
  have hge : 10 ^ 27 ≤ r := by
    by_contra hlt
    have hmul : r * d ≤ (10 ^ 27 - 1) * d := Nat.mul_le_mul_right d (by omega)
    rw [Nat.sub_mul] at hmul
    zify at hmul
    omega
  have hle : r ≤ 10 ^ 28 := by
    by_contra hlt
    have hmul : (10 ^ 28 + 1) * d ≤ r * d := Nat.mul_le_mul_right d (by omega)
    omega
  have hprec : toPrec shiftRoundBig neg c e =
      if digits r > prec then (r / 10, e + (k : ℕ) + 1) else (r, e + (k : ℕ)) := by
    rw [toPrec, if_pos hc, hsub, hr]
  refine ⟨r, hge, ?_, hnear, ?_, ?_⟩
  · rw [hprec]
    split
    · rename_i hdig
      have heq : r = 10 ^ 28 := by
        by_contra hne
        have := digits_le (n := r) (k := 28) (by omega) (by omega)
        simp only [prec] at hdig
        omega
      rw [heq, zpow_add₀ (by norm_num) (e + k) 1]
      norm_num
      ring
    · rfl
  · rw [hprec]
    split
    · exact digits_le (by decide) (by simp only [prec]; omega)
    · rename_i hdig
      exact not_lt.mp hdig
  · rw [hprec]
    split <;> simp

/-- Rounding to the scale leaves a result alone or puts it on the grid of that scale. -/
theorem toScale_near {c c' : Nat} {e e' : ℤ} {neg : Bool} (h : toScale neg c e = .ok (c', e')) :
    (c' = c ∧ e' = e) ∨ (e ≤ -29 ∧ e' = -28 ∧
      |(c' : ℚ) * 10 ^ (-28 : ℤ) - c * 10 ^ e| ≤ 10 ^ (-28 : ℤ) / 2) := by
  unfold toScale at h
  split at h
  · rename_i hlow
    dsimp only at h
    split at h
    · cases h
    · rename_i hne
      obtain ⟨rfl, rfl⟩ := Prod.mk.inj (Except.ok.inj h)
      obtain ⟨drop, hdrop⟩ : ∃ drop : ℕ, e = -28 - (drop : ℤ) :=
        ⟨(-28 - e).toNat, by simp only [maxScale] at hlow; omega⟩
      have htoNat : (-(maxScale : ℤ) - e).toNat = drop := by simp only [maxScale]; omega
      rw [htoNat] at hne ⊢
      have hdrop38 : drop ≤ 38 := by
        by_contra hgt
        exact hne (by rw [shiftRoundU128, if_pos (by omega)])
      have hnear := shiftRoundU128_near (c := c) neg hdrop38
      generalize shiftRoundU128 c drop neg .halfEven = c' at *
      have hcast : 2 * |(c' : ℚ) * 10 ^ drop - c| ≤ 10 ^ drop := by exact_mod_cast hnear
      have hgrid : (10 : ℚ) ^ (-28 : ℤ) = 10 ^ drop * 10 ^ e := by
        rw [hdrop, ← zpow_natCast, ← zpow_add₀ (by norm_num)]
        congr 1
        omega
      have hpos : (0 : ℚ) < 10 ^ e := by positivity
      refine Or.inr ⟨by simp only [maxScale] at hlow; omega, rfl, ?_⟩
      have hsplit : (c' : ℚ) * 10 ^ (-28 : ℤ) - c * 10 ^ e = (c' * 10 ^ drop - c) * 10 ^ e := by
        rw [hgrid]
        ring
      rw [hsplit, hgrid, abs_mul, abs_of_pos hpos]
      have hle := mul_le_mul_of_nonneg_right hcast hpos.le
      linarith
  · obtain ⟨rfl, rfl⟩ := Prod.mk.inj (Except.ok.inj h)
    exact Or.inl ⟨rfl, rfl⟩

/-- A coefficient within one of the exact value, of over 28 digits, is within six tenths of a step
once it has 28. -/
theorem near_of_coef {c m k : ℕ} {e : ℤ} {x : ℚ} (hk : 1 ≤ k)
    (hm : 2 * |(m : ℤ) * (10 ^ k : ℕ) - c| ≤ (10 ^ k : ℕ)) (hx : |(c : ℚ) * 10 ^ e - x| < 10 ^ e) :
    |(m : ℚ) * 10 ^ (e + (k : ℤ)) - x| < 6 / 10 * 10 ^ (e + (k : ℤ)) := by
  have he : (0 : ℚ) < 10 ^ e := by positivity
  have hg : (10 : ℚ) ^ (e + (k : ℤ)) = 10 ^ k * 10 ^ e := by
    rw [zpow_add₀ (by norm_num), zpow_natCast, mul_comm]
  have hten : (10 : ℚ) ≤ 10 ^ k := by
    calc (10 : ℚ) = 10 ^ 1 := (pow_one _).symm
      _ ≤ 10 ^ k := pow_le_pow_right₀ (by norm_num) hk
  have hcast : 2 * |(m : ℚ) * 10 ^ k - c| ≤ 10 ^ k := by exact_mod_cast hm
  have hsplit : (m : ℚ) * 10 ^ (e + (k : ℤ)) - x = (m * 10 ^ k - c) * 10 ^ e + (c * 10 ^ e - x) := by
    rw [hg]
    ring
  have htri := abs_add_le ((m * 10 ^ k - c : ℚ) * 10 ^ e) (c * 10 ^ e - x)
  rw [abs_mul, abs_of_pos he] at htri
  have hhalf : |(m : ℚ) * 10 ^ k - c| * 10 ^ e ≤ 10 ^ k / 2 * 10 ^ e :=
    mul_le_mul_of_nonneg_right (by linarith) he.le
  have htenth := mul_le_mul_of_nonneg_right hten he.le
  rw [hsplit, hg]
  linarith

/-- The two roundings of a result, to 28 digits and then to a scale of 28. -/
theorem finishBig_rounded {c : Nat} {e : ℤ} {x : ℚ} {r : Money} (hc : prec < digits c)
    (hx : |(c : ℚ) * 10 ^ e - x| < 10 ^ e) (h : finishBig false c e = .ok r) : Rounded x r.val := by
  obtain ⟨m, hm, hval, hnear, hdig, hexp⟩ := toPrec_near (e := e) false hc
  have hc0 : c ≠ 0 := by rintro rfl; simp [digits, prec] at hc
  have hstep := near_of_coef (by omega) hnear hx
  generalize e + ((digits c - prec : ℕ) : ℤ) = g at *
  have hg : (0 : ℚ) < 10 ^ g := by positivity
  rw [finishBig, if_neg hc0] at h
  dsimp only at h
  generalize toPrec shiftRoundBig false c e = ce at *
  obtain ⟨c', e'⟩ := ce
  dsimp only at *
  have hc' : c' ≠ 0 := by
    rintro rfl
    have hmpos : (0 : ℚ) < m := by exact_mod_cast lt_of_lt_of_le (by norm_num) hm
    have hpos := mul_pos hmpos hg
    rw [← hval] at hpos
    simp at hpos
  have hid : toPrec shiftRoundU128 false c' e' = (c', e') := by
    rw [toPrec, if_neg (not_lt.mpr hdig)]
  simp only [finishU128, if_neg hc', bind_eq_ok, hid] at h
  obtain ⟨⟨c2, e2⟩, hscale, h⟩ := h
  have hr := build_val h
  simp only [Bool.false_eq_true, if_false, one_mul] at hr
  rcases toScale_near hscale with ⟨rfl, rfl⟩ | ⟨hlow, rfl, hnear2⟩
  · rw [hval] at hr
    refine ⟨g, m, hr, ?_, Or.inr ?_⟩
    · rw [hr]
      linarith
    · rw [hr]
      exact mul_le_mul_of_nonneg_right (by exact_mod_cast hm) hg.le
  · -- the grid of the scale is at least ten times as coarse
    have hfine : (10 : ℚ) ^ g ≤ 10 ^ (-28 : ℤ) / 10 := by
      calc (10 : ℚ) ^ g ≤ 10 ^ (-29 : ℤ) := zpow_le_zpow_right₀ (by norm_num) (by omega)
        _ = 10 ^ (-28 : ℤ) / 10 := by norm_num
    have hpos : (0 : ℚ) < 10 ^ (-28 : ℤ) := by positivity
    refine ⟨-28, c2, hr, ?_, Or.inl le_rfl⟩
    rw [hval] at hnear2
    have htri := abs_add_le ((c2 : ℚ) * 10 ^ (-28 : ℤ) - m * 10 ^ g) (m * 10 ^ g - x)
    rw [sub_add_sub_cancel, ← hr] at htri
    rw [← hr] at hnear2
    generalize (10 : ℚ) ^ (-28 : ℤ) = u at *
    linarith

/-! ## Quotients -/

theorem quotBig_eq_quotU128 (num den : ℕ) : quotBig num den = quotU128 num den := by
  have hr : num - num / den * den = num % den := by
    have := Nat.div_add_mod' num den
    omega
  simp only [quotBig, quotU128, hr]

theorem divCoef_of_nonneg {ma mb : ℕ} {shift : ℤ} (hs : 0 ≤ shift) :
    divCoef ma mb shift = quotBig (ma * 10 ^ shift.toNat) mb := by
  rw [divCoef, if_pos hs]
  split
  · rename_i num hnum
    obtain ⟨p, hp, hmul⟩ := Option.bind_eq_some_iff.1 hnum
    unfold pow10 at hp
    unfold checkedMul at hmul
    split at hp
    · cases hp
      split at hmul
      · cases hmul
        exact (quotBig_eq_quotU128 _ _).symm
      · cases hmul
    · cases hp
  · rfl

/-- A numerator and a denominator with the shift multiplied in. -/
theorem divCoef_quot (ma : ℕ) {mb : ℕ} (hb : mb ≠ 0) (shift : ℤ) :
    ∃ num den : ℕ, 0 < den ∧ divCoef ma mb shift = (num / den, num % den != 0) ∧
      (num : ℚ) / den = ma / mb * 10 ^ shift := by
  by_cases hs : 0 ≤ shift
  · refine ⟨ma * 10 ^ shift.toNat, mb, Nat.pos_of_ne_zero hb, ?_, ?_⟩
    · rw [divCoef_of_nonneg hs, quotBig_eq_quotU128]
      rfl
    · nth_rewrite 2 [← Int.toNat_of_nonneg hs]
      rw [zpow_natCast]
      push_cast
      ring
  · refine ⟨ma, mb * 10 ^ (-shift).toNat, ?_, ?_, ?_⟩
    · exact Nat.mul_pos (Nat.pos_of_ne_zero hb) (by positivity)
    · rw [divCoef, if_neg hs, quotBig_eq_quotU128]
      rfl
    · have hb' : (0 : ℚ) < mb := by exact_mod_cast Nat.pos_of_ne_zero hb
      have hneg : shift = -((-shift).toNat : ℤ) := by omega
      nth_rewrite 2 [hneg]
      rw [zpow_neg, zpow_natCast]
      push_cast
      field_simp

/-- The shift leaves more than 28 digits before the point. -/
theorem shifted_large {ma mb : ℕ} (ha : ma ≠ 0) (hb : mb ≠ 0) :
    (10 : ℚ) ^ 28 ≤ ma / mb * 10 ^ ((digits mb : ℤ) - digits ma + prec + 1) := by
  have hb' : (0 : ℚ) < mb := by exact_mod_cast Nat.pos_of_ne_zero hb
  have hma : (10 : ℚ) ^ ((digits ma : ℤ) - 1) ≤ ma := by
    have hpos : 1 ≤ digits ma := by unfold digits; split <;> omega
    have hsub : (digits ma : ℤ) - 1 = (digits ma - 1 : ℕ) := by omega
    rw [hsub, zpow_natCast]
    exact_mod_cast pow_digits_le ha
  have hmb : (mb : ℚ) < 10 ^ (digits mb : ℤ) := by
    rw [zpow_natCast]
    exact_mod_cast lt_pow_digits mb
  calc (10 : ℚ) ^ 28 = 10 ^ ((digits ma : ℤ) - 1) / 10 ^ (digits mb : ℤ) *
        10 ^ ((digits mb : ℤ) - digits ma + prec + 1) := by
        rw [← zpow_sub₀ (by norm_num), ← zpow_add₀ (by norm_num), ← zpow_natCast]
        congr 1
        simp only [prec]
        push_cast
        ring
    _ ≤ ma / mb * 10 ^ ((digits mb : ℤ) - digits ma + prec + 1) := by gcongr

/-- The shifted quotient has more than 28 digits and is within one of the exact one. -/
theorem divCoef_near {ma mb : ℕ} (ha : ma ≠ 0) (hb : mb ≠ 0) :
    let shift : ℤ := digits mb - digits ma + prec + 1
    let q := divCoef ma mb shift
    let coef := if q.2 && q.1 % 5 == 0 then q.1 + 1 else q.1
    prec < digits coef ∧ |(coef : ℚ) - ma / mb * 10 ^ shift| < 1 := by
  intro shift q coef
  have hb' : (0 : ℚ) < mb := by exact_mod_cast Nat.pos_of_ne_zero hb
  obtain ⟨num, den, hden, hq, hnd⟩ : ∃ num den : ℕ, 0 < den ∧ q = (num / den, num % den != 0) ∧
      (num : ℚ) / den = ma / mb * 10 ^ shift := divCoef_quot ma hb shift
  have hden' : (0 : ℚ) < den := by exact_mod_cast hden
  have hq1 : q.1 = num / den := by rw [hq]
  have hle : (q.1 : ℚ) ≤ num / den := by
    rw [hq1]
    exact Nat.cast_div_le
  have hlt : (num : ℚ) / den < q.1 + 1 := by
    rw [hq1, div_lt_iff₀ hden']
    have hmul := Nat.lt_mul_div_succ num hden
    rw [Nat.mul_comm] at hmul
    exact_mod_cast hmul
  have hlarge : 10 ^ 28 ≤ q.1 := by
    have hx : (10 : ℚ) ^ 28 ≤ num / den := hnd ▸ shifted_large ha hb
    rw [hq1, Nat.le_div_iff_mul_le hden]
    rw [le_div_iff₀ hden'] at hx
    exact_mod_cast hx
  have hcoef : q.1 ≤ coef := by
    simp only [coef]
    split <;> omega
  refine ⟨?_, ?_⟩
  · by_contra hdig
    have hpow : 10 ^ digits coef ≤ 10 ^ 28 := Nat.pow_le_pow_right (by omega) (not_lt.mp hdig)
    have := lt_pow_digits coef
    omega
  · rw [← hnd, abs_lt]
    simp only [coef]
    split
    · rename_i hsticky
      rw [hq] at hsticky
      simp only [Bool.and_eq_true, bne_iff_ne] at hsticky
      -- digits were cut, so the exact quotient is above its floor
      have hstrict : (q.1 : ℚ) < num / den := by
        have hdm := Nat.div_add_mod' num den
        have hmod : 0 < num % den := Nat.pos_of_ne_zero hsticky.1
        rw [hq1, lt_div_iff₀ hden']
        exact_mod_cast (by omega : num / den * den < num)
      push_cast
      constructor <;> linarith
    · constructor <;> linarith

/-- A quotient of amounts that are not negative. -/
theorem div_rounded {a b r : Money} (ha : 0 ≤ a.val) (hb : 0 < b.val) (h : div a b = .ok r) :
    Rounded (a.val / b.val) r.val := by
  have hval : ∀ {m : Money}, 0 ≤ m.val → m.val = m.coefficient * 10 ^ m.exponent := by
    intro m hm
    have hneg : 0 ≤ m.mantissa := by simpa [isNegative] using isNegative_eq_false hm
    have hcast : ((m.mantissa.natAbs : ℕ) : ℚ) = m.mantissa := by
      rw [← Int.cast_natCast, Int.natAbs_of_nonneg hneg]
    rw [val, coefficient, hcast, exponent, zpow_neg, zpow_natCast, div_eq_mul_inv]
  have hb0 : b.coefficient ≠ 0 := by
    intro hz
    rw [hval hb.le, hz] at hb
    simp at hb
  have hscaled : ∀ (coef : ℕ) (shift : ℤ),
      |(coef : ℚ) - a.coefficient / b.coefficient * 10 ^ shift| < 1 →
      |(coef : ℚ) * 10 ^ (a.exponent - b.exponent - shift) - a.val / b.val| <
        10 ^ (a.exponent - b.exponent - shift) := by
    intro coef shift hnear
    have hten : (0 : ℚ) < 10 ^ (a.exponent - b.exponent - shift) := by positivity
    have hquot : a.val / b.val = a.coefficient / b.coefficient * 10 ^ (a.exponent - b.exponent) := by
      rw [hval ha, hval hb.le, zpow_sub₀ (by norm_num), mul_div_mul_comm]
    have heq : (coef : ℚ) * 10 ^ (a.exponent - b.exponent - shift) - a.val / b.val =
        (coef - a.coefficient / b.coefficient * 10 ^ shift) *
          10 ^ (a.exponent - b.exponent - shift) := by
      rw [hquot, sub_mul, mul_assoc (_ / _), ← zpow_add₀ (by norm_num), add_sub_cancel]
    rw [heq, abs_mul, abs_of_pos hten]
    exact mul_lt_of_lt_one_left hten hnear
  unfold div at h
  rw [if_neg hb0] at h
  split at h
  · rename_i hz
    cases h
    refine ⟨-28, 0, by simp, ?_, Or.inl le_rfl⟩
    rw [hval ha, hz]
    simp
  · rename_i ha0
    obtain ⟨hdig, hnear⟩ := divCoef_near ha0 hb0
    dsimp only at h
    rw [isNegative_eq_false ha, isNegative_eq_false hb.le] at h
    exact finishBig_rounded hdig (hscaled _ _ hnear) h

/-! ## Whole amounts -/

theorem toIntegral_floor {a r : Money} (ha : 0 ≤ a.val) (h : a.toIntegral .floor = .ok r) :
    r.val = ⌊a.val⌋ := by
  unfold toIntegral at h
  split at h
  · rename_i hexp
    cases h
    have hs : a.scale = 0 := by simp only [exponent] at hexp; omega
    simp [val, hs]
  · have hneg := isNegative_eq_false ha
    have hm : 0 ≤ a.mantissa := by simpa [isNegative] using hneg
    rw [hneg, shiftRoundU128, if_neg (by have := a.scale_le; simp only [maxScale] at this; omega)] at h
    have hr := build_val h
    simp only [Bool.false_and, Bool.false_eq_true, if_false, one_mul, zpow_zero, mul_one,
      add_zero] at hr
    have hcast : a.val = (a.coefficient : ℚ) / (10 ^ a.scale : ℕ) := by
      have hnat : ((a.mantissa.natAbs : ℕ) : ℚ) = a.mantissa := by
        rw [← Int.cast_natCast, Int.natAbs_of_nonneg hm]
      rw [val, coefficient, hnat]
      push_cast
      rfl
    rw [hr, hcast, Rat.floor_natCast_div_natCast]
    rfl

/-- A whole amount has no scale. -/
theorem mantissa_of_whole {a : Money} {n : ℤ} (h : a.val = n) : a.scale = 0 ∧ a.mantissa = n := by
  have hten : (0 : ℚ) < 10 ^ a.scale := by positivity
  have hm : a.mantissa = n * 10 ^ a.scale := by
    rw [val, div_eq_iff hten.ne'] at h
    exact_mod_cast h
  have hs : a.scale = 0 := by
    rcases a.canonical with hs | hs
    · exact hs
    · by_contra hne
      obtain ⟨k, hk⟩ := Nat.exists_eq_succ_of_ne_zero hne
      refine hs ?_
      rw [hm, hk, pow_succ, ← mul_assoc, Int.mul_emod_left]
  exact ⟨hs, by rw [hm, hs, pow_zero, mul_one]⟩

theorem truncI128_whole {a : Money} {n r : ℤ} (ha : a.val = n) (h : a.truncI128 = .ok r) : r = n := by
  obtain ⟨hs, hm⟩ := mantissa_of_whole ha
  have hexp : a.exponent ≥ 0 := by simp [exponent, hs]
  simp only [truncI128, hexp, if_true] at h
  split at h
  · cases h
    rw [← hm, signed, isNegative, coefficient]
    split <;> rename_i hneg <;> simp only [decide_eq_true_eq] at hneg <;> omega
  · cases h

theorem val_whole {a : Money} (h : a.isIntegral = true) : ∃ n : ℤ, a.val = n := by
  refine ⟨a.mantissa, ?_⟩
  simp only [isIntegral, beq_iff_eq] at h
  simp [val, h]

end Money

/-! ## Integers stay on their side -/

namespace Rounded

variable {x y : ℚ}

/-- Of a value up to `10²⁶` the grid holds the integers, and its step is small. -/
theorem grid (hx : x ≤ 10 ^ 26) (h : Rounded x y) :
    ∃ (g : ℤ) (m : ℕ), y = m * 10 ^ g ∧ |y - x| < 10 ^ g ∧ g ≤ 0 ∧
      (10 : ℚ) ^ g ≤ 1 / 10 ^ 28 + y / 10 ^ 27 := by
  obtain ⟨g, m, hy, hnear, hg⟩ := h
  have hpos : (0 : ℚ) < 10 ^ g := by positivity
  have hy0 : 0 ≤ y := by rw [hy]; positivity
  refine ⟨g, m, hy, hnear, ?_, ?_⟩
  · rcases hg with hg | hg
    · omega
    · by_contra hgt
      have hone : (1 : ℚ) ≤ 10 ^ g := one_le_zpow₀ (by norm_num) (by omega)
      have := (abs_lt.mp hnear).2
      linarith
  · rcases hg with hg | hg
    · have hle : (10 : ℚ) ^ g ≤ 10 ^ (-28 : ℤ) := zpow_le_zpow_right₀ (by norm_num) hg
      rw [show (10 : ℚ) ^ (-28 : ℤ) = 1 / 10 ^ 28 by norm_num] at hle
      exact hle.trans (le_add_of_nonneg_right (by positivity))
    · have hle : (10 : ℚ) ^ g ≤ y / 10 ^ 27 := by
        rw [le_div_iff₀ (by positivity)]
        linarith
      have : (0 : ℚ) ≤ 1 / 10 ^ 28 := by positivity
      linarith

/-- Two points of one grid are equal or a step apart. -/
theorem step_le {g : ℤ} {m n : ℤ} (h : (m : ℚ) * 10 ^ g < n * 10 ^ g) :
    (m : ℚ) * 10 ^ g + 10 ^ g ≤ n * 10 ^ g := by
  have hpos : (0 : ℚ) < 10 ^ g := by positivity
  have hlt : m + 1 ≤ n := by exact_mod_cast lt_of_mul_lt_mul_right h hpos.le
  calc (m : ℚ) * 10 ^ g + 10 ^ g = ((m + 1 : ℤ) : ℚ) * 10 ^ g := by push_cast; ring
    _ ≤ n * 10 ^ g := mul_le_mul_of_nonneg_right (by exact_mod_cast hlt) hpos.le

theorem int_on_grid {g : ℤ} (hg : g ≤ 0) (n : ℤ) : ∃ k : ℤ, (n : ℚ) = k * 10 ^ g := by
  refine ⟨n * 10 ^ (-g).toNat, ?_⟩
  have hnat : ((-g).toNat : ℤ) = -g := by omega
  push_cast
  rw [← zpow_natCast, hnat, mul_assoc, ← zpow_add₀ (by norm_num), neg_add_cancel, zpow_zero, mul_one]

theorem int_le (hx : x ≤ 10 ^ 26) (h : Rounded x y) {n : ℤ} (hn : n ≤ x) : n ≤ y := by
  obtain ⟨g, m, hy, hnear, hg, -⟩ := h.grid hx
  obtain ⟨k, hk⟩ := int_on_grid hg n
  by_contra hlt
  rw [hy, hk] at hlt
  have hstep := step_le (m := m) (by exact_mod_cast not_le.mp hlt)
  rw [← hk, Int.cast_natCast, ← hy] at hstep
  have := (abs_lt.mp hnear).1
  linarith

theorem le_int (hx : x ≤ 10 ^ 26) (h : Rounded x y) {n : ℤ} (hn : x ≤ n) : y ≤ n := by
  obtain ⟨g, m, hy, hnear, hg, -⟩ := h.grid hx
  obtain ⟨k, hk⟩ := int_on_grid hg n
  by_contra hlt
  rw [hy, hk] at hlt
  have hstep := step_le (n := m) (by exact_mod_cast not_le.mp hlt)
  rw [← hk, Int.cast_natCast, ← hy] at hstep
  have := (abs_lt.mp hnear).2
  linarith

/-- What rounding adds is small beside the value. -/
theorem le_add (hx : x ≤ 10 ^ 26) (h : Rounded x y) : y ≤ x + (1 / 10 ^ 27 + x / 10 ^ 26) := by
  obtain ⟨g, m, hy, hnear, hg, hstep⟩ := h.grid hx
  have := (abs_lt.mp hnear).2
  have hy0 : 0 ≤ y := by rw [hy]; positivity
  linarith

end Rounded

end TradeEngine
