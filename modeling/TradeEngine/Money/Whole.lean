import TradeEngine.Money.Rounding

/-!
# Whole amounts

Sums, differences and products of whole amounts are exact as long as they stay below `10²⁸`, and the
quotient of two such amounts is never refused.
-/

namespace TradeEngine

open Lib

namespace Money

/-! ## Building -/

theorem strip_snd_ge (c : Nat) (e : ℤ) : e ≤ (strip c e).2 := by
  suffices h : ∀ n c e, e ≤ (stripZeros n c e).2 from h _ c e
  intro n
  induction n with
  | zero => exact fun _ _ => le_rfl
  | succ n ih =>
      intro c e
      unfold stripZeros
      split
      · have := ih (c / 10) (e + 1)
        omega
      · exact le_rfl

theorem strip_fst_le (c : Nat) (e : ℤ) : (strip c e).1 ≤ c := by
  suffices h : ∀ n c e, (stripZeros n c e).1 ≤ c from h _ c e
  intro n
  induction n with
  | zero => exact fun _ _ => le_rfl
  | succ n ih =>
      intro c e
      unfold stripZeros
      split
      · exact (ih (c / 10) (e + 1)).trans (Nat.div_le_self c 10)
      · exact le_rfl

/-- A coefficient of 96 bits at a scale of at most 28 is built, if its value has 96 bits too. -/
theorem build_ok {c : Nat} {e : ℤ} (n : Bool) (hc : c < mantissaLimit) (he : -28 ≤ e)
    (hval : (c : ℚ) * 10 ^ e < 2 ^ 96) : ∃ r, build n c e = .ok r := by
  unfold build
  split
  · exact ⟨_, rfl⟩
  · rename_i hc0
    have hexp := strip_snd_ge c e
    have hle := strip_fst_le c e
    have hpos : 0 < (strip c e).1 := by
      have := strip_fst_mod e hc0
      omega
    rw [← strip_val] at hval
    dsimp only
    split
    · rename_i hup
      obtain ⟨k, hk⟩ : ∃ k : ℕ, (strip c e).2 = k := ⟨(strip c e).2.toNat, by omega⟩
      rw [hk, zpow_natCast] at hval
      have hprod : (strip c e).1 * 10 ^ k < 2 ^ 96 := by exact_mod_cast hval
      have hsmall : k < 29 := by
        by_contra hge
        have hten : 10 ^ 29 ≤ 10 ^ k := Nat.pow_le_pow_right (by omega) (by omega)
        nlinarith
      have hmul : checkedMul (strip c e).1 (10 ^ k) = some ((strip c e).1 * 10 ^ k) :=
        if_pos (by omega)
      rw [if_neg (by omega), hk, Int.toNat_natCast]
      split
      · rename_i hnone
        rw [hmul] at hnone
        cases hnone
      · rename_i c' hsome
        rw [hmul] at hsome
        obtain rfl := Option.some.inj hsome
        rw [dif_pos (by simp only [mantissaLimit]; omega)]
        exact ⟨_, rfl⟩
    · rw [dif_pos ⟨by simp only [maxScale]; omega, by omega⟩]
      exact ⟨_, rfl⟩

/-! ## Finishing -/

theorem finishU128_whole {c : Nat} (n : Bool) (hc : c < 10 ^ 28) :
    ∃ r, finishU128 n c 0 = .ok r ∧ r.val = (signed n c : ℤ) := by
  unfold finishU128
  split
  · rename_i hz
    exact ⟨zero, rfl, by simp [hz, signed]⟩
  · have hdig : digits c ≤ prec := digits_le (by decide) hc
    have hprec : toPrec shiftRoundU128 n c 0 = (c, 0) := by rw [toPrec, if_neg (not_lt.mpr hdig)]
    have hscale : toScale n c 0 = .ok (c, 0) := by rw [toScale, if_neg (by decide)]
    have hlim : (c : ℚ) < 10 ^ 28 := by exact_mod_cast hc
    obtain ⟨r, hr⟩ := build_ok (e := 0) n (c := c) (by simp only [mantissaLimit]; omega) (by decide)
      (by rw [zpow_zero, mul_one]; linarith)
    refine ⟨r, by simp only [hprec, hscale]; exact hr, ?_⟩
    rw [build_val hr, zpow_zero, mul_one, signed_cast]

/-- A whole amount is its coefficient with a sign. -/
theorem whole_parts {a : Money} {k : ℤ} (h : a.val = k) :
    a.exponent = 0 ∧ a.coefficient = k.natAbs ∧ a.isNegative = decide (k < 0) := by
  obtain ⟨hs, hm⟩ := mantissa_of_whole h
  exact ⟨by simp [exponent, hs], by rw [coefficient, hm], by rw [isNegative, hm]⟩

theorem natAbs_lt_limit {a : Money} {k : ℤ} (h : a.val = k) : k.natAbs < 2 ^ 96 := by
  rw [← (mantissa_of_whole h).2]
  exact a.mantissa_lt

section

variable {a b : Money} {k l : ℤ}

/-- `j` is the second operand with the sign it enters the sum with. -/
theorem addSigned_whole (flip : Bool) {j : ℤ} (ha : a.val = k) (hb : b.val = l)
    (hj : j = if flip then -l else l) (hlt : (k + j).natAbs < 10 ^ 28) :
    ∃ r, addSigned a b flip = .ok r ∧ r.val = (k + j : ℤ) := by
  obtain ⟨hea, hca, hna⟩ := whole_parts ha
  obtain ⟨heb, hcb, hnb⟩ := whole_parts hb
  have hla := natAbs_lt_limit ha
  have hlb := natAbs_lt_limit hb
  have hx : ∀ n : ℕ, n < 2 ^ 96 → (pow10 0).bind (checkedMul n) = some n := by
    intro n hn
    rw [pow10, if_pos (by omega), pow_zero, Option.bind_some, checkedMul, mul_one, if_pos (by omega)]
  have habs : l.natAbs = j.natAbs := by
    rw [hj]
    split <;> omega
  have hside : (decide (l < 0) ^^ (flip && l.natAbs != 0)) = decide (j < 0) := by
    rw [hj]
    cases flip with
    | false => simp
    | true =>
        rcases lt_trichotomy l 0 with hl | rfl | hl
        · have hne : (l.natAbs != 0) = true := by rw [bne_iff_ne]; omega
          simp [hl, hne, hl.le]
        · rfl
        · have hne : (l.natAbs != 0) = true := by rw [bne_iff_ne]; omega
          simp [hl, hne, hl.le]
  have hfinish : ∀ (n : Bool) (c : ℕ), signed n c = k + j →
      ∃ r, finishU128 n c 0 = .ok r ∧ r.val = (k + j : ℤ) := by
    intro n c h
    obtain ⟨r, hr, hval⟩ := finishU128_whole (c := c) n (by rw [← h, signed_natAbs] at hlt; exact hlt)
    exact ⟨r, hr, by rw [hval, h]⟩
  unfold addSigned
  simp only [hea, heb, hca, hcb, hna, hnb, min_self, sub_zero, Int.toNat_zero, hx _ hla, hx _ hlb, hside]
  rw [habs] at hlb ⊢
  have hsum : checkedAdd k.natAbs j.natAbs = some (k.natAbs + j.natAbs) := if_pos (by omega)
  rw [hsum]
  split
  · rename_i hsame
    refine hfinish _ _ ?_
    rw [decide_eq_decide] at hsame
    simp only [signed, Bool.and_eq_true, decide_eq_true_eq, bne_iff_ne]
    split <;> omega
  · rename_i hdiff
    rw [decide_eq_decide] at hdiff
    split
    · refine hfinish _ _ ?_
      simp only [signed, Bool.and_eq_true, decide_eq_true_eq, bne_iff_ne]
      split <;> omega
    · refine hfinish _ _ ?_
      simp only [signed, Bool.and_eq_true, decide_eq_true_eq, bne_iff_ne]
      split <;> omega

theorem add_whole (ha : a.val = k) (hb : b.val = l) (hlt : (k + l).natAbs < 10 ^ 28) :
    ∃ r, add a b = .ok r ∧ r.val = a.val + b.val := by
  obtain ⟨r, hr, hval⟩ := addSigned_whole false ha hb rfl hlt
  exact ⟨r, hr, by rw [hval, ha, hb]; push_cast; rfl⟩

theorem sub_whole (ha : a.val = k) (hb : b.val = l) (hlt : (k - l).natAbs < 10 ^ 28) :
    ∃ r, sub a b = .ok r ∧ r.val = a.val - b.val := by
  obtain ⟨r, hr, hval⟩ := addSigned_whole true ha hb (j := -l) rfl hlt
  exact ⟨r, hr, by rw [hval, ha, hb]; push_cast; ring⟩

theorem mul_whole (ha : a.val = k) (hb : b.val = l) (hlt : (k * l).natAbs < 10 ^ 28) :
    ∃ r, mul a b = .ok r ∧ r.val = a.val * b.val := by
  obtain ⟨hea, hca, hna⟩ := whole_parts ha
  obtain ⟨heb, hcb, hnb⟩ := whole_parts hb
  rw [Int.natAbs_mul] at hlt
  obtain ⟨r, hr, hval⟩ := finishU128_whole (decide (k < 0) != decide (l < 0)) hlt
  refine ⟨r, ?_, ?_⟩
  · simp only [mul, hea, heb, hca, hcb, hna, hnb, add_zero]
    rw [checkedMul, if_pos (by omega)]
    exact hr
  · have hprod : signed (decide (k < 0) != decide (l < 0)) (k.natAbs * l.natAbs) = k * l := by
      rw [signed]
      push_cast
      rcases lt_or_ge k 0 with hk | hk <;> rcases lt_or_ge l 0 with hl | hl <;>
        simp [hk, hl, not_lt.mpr, abs_of_neg, abs_of_nonneg]
    rw [hval, hprod, ha, hb]
    push_cast
    rfl

end

/-! ## Quotients -/

/-- A coefficient of over 28 digits is finished, if its value is neither too large nor too small. -/
theorem finishBig_ok {c : Nat} {e : ℤ} (hc : prec < digits c)
    (hlo : 9 / 10 * 10 ^ (-28 : ℤ) ≤ (c : ℚ) * 10 ^ e) (hhi : (c : ℚ) * 10 ^ e ≤ 2 * 10 ^ 28) :
    ∃ r, finishBig false c e = .ok r := by
  obtain ⟨m, hm, hval, hnear, hdig, hexp⟩ := toPrec_near (e := e) false hc
  have hc0 : c ≠ 0 := by rintro rfl; simp [digits, prec] at hc
  obtain ⟨k, hk⟩ : ∃ k, digits c - prec = k := ⟨_, rfl⟩
  rw [hk] at hval hnear hexp
  have he : (0 : ℚ) < 10 ^ e := by positivity
  have hsplit : (10 : ℚ) ^ (e + (k : ℤ)) = 10 ^ k * 10 ^ e := by
    rw [zpow_add₀ (by norm_num), zpow_natCast, mul_comm]
  -- rounding moves the value by less than a tenth of it
  have hmove : |(m : ℚ) * 10 ^ k - c| ≤ c / 10 := by
    have hcast : 2 * |(m : ℚ) * 10 ^ k - c| ≤ 10 ^ k := by exact_mod_cast hnear
    have hpow : (10 : ℚ) ^ k * 10 ≤ c := by
      have hle : 10 ^ (k + 1) ≤ 10 ^ (digits c - 1) := Nat.pow_le_pow_right (by omega) (by
        simp only [prec] at hk hc
        omega)
      have hle' : 10 ^ k * 10 ≤ c := by
        rw [← pow_succ]
        exact hle.trans (pow_digits_le hc0)
      exact_mod_cast hle'
    linarith
  obtain ⟨hdown, hup⟩ := abs_le.mp hmove
  have hlow : 81 / 100 * 10 ^ (-28 : ℤ) ≤ (m : ℚ) * 10 ^ (e + (k : ℤ)) := by
    rw [hsplit, ← mul_assoc]
    have hmost := mul_le_mul_of_nonneg_right (by linarith : (c : ℚ) * (9 / 10) ≤ m * 10 ^ k) he.le
    linarith
  have hhigh : (m : ℚ) * 10 ^ (e + (k : ℤ)) ≤ 3 * 10 ^ 28 := by
    rw [hsplit, ← mul_assoc]
    have hmore := mul_le_mul_of_nonneg_right (by linarith : (m : ℚ) * 10 ^ k ≤ c * (11 / 10)) he.le
    linarith
  rw [← hval] at hlow hhigh
  rw [finishBig, if_neg hc0]
  dsimp only
  generalize toPrec shiftRoundBig false c e = ce at *
  obtain ⟨c', e'⟩ := ce
  dsimp only at *
  have hc' : c' ≠ 0 := by
    rintro rfl
    norm_num at hlow
  have hlt : c' < 10 ^ 28 := (lt_pow_digits c').trans_le (Nat.pow_le_pow_right (by omega) hdig)
  have hid : toPrec shiftRoundU128 false c' e' = (c', e') := by
    rw [toPrec, if_neg (not_lt.mpr hdig)]
  simp only [finishU128, if_neg hc', hid]
  by_cases hfine : e' < -(maxScale : ℤ)
  · -- the digits below the scale are rounded off, and something remains
    obtain ⟨drop, hdrop⟩ : ∃ drop : ℕ, e' = -28 - (drop : ℤ) :=
      ⟨(-28 - e').toNat, by simp only [maxScale] at hfine; omega⟩
    have htoNat : (-(maxScale : ℤ) - e').toNat = drop := by simp only [maxScale]; omega
    have hpow : (10 : ℚ) ^ e' * 10 ^ drop = 10 ^ (-28 : ℤ) := by
      rw [hdrop, ← zpow_natCast, ← zpow_add₀ (by norm_num)]
      congr 1
      omega
    have hbig : 81 * 10 ^ drop ≤ 100 * c' := by
      have hle : (81 : ℚ) * 10 ^ drop * 10 ^ e' ≤ 100 * c' * 10 ^ e' := by
        rw [mul_assoc, mul_comm (10 ^ drop), hpow, mul_assoc]
        generalize (c' : ℚ) * 10 ^ e' = x at hlow ⊢
        norm_num at hlow ⊢
        linarith
      exact_mod_cast le_of_mul_le_mul_right hle (by positivity)
    have hdrop38 : drop ≤ 38 := by
      by_contra hgt
      have : 10 ^ 39 ≤ 10 ^ drop := Nat.pow_le_pow_right (by omega) (by omega)
      omega
    have hnear2 := shiftRoundU128_near (c := c') false hdrop38
    rw [toScale, if_pos hfine, htoNat]
    generalize shiftRoundU128 c' drop false .halfEven = r at *
    have hr0 : r ≠ 0 := by
      rintro rfl
      simp only [Nat.cast_zero, zero_mul, zero_sub, abs_neg, Nat.abs_cast] at hnear2
      omega
    have hrle : r ≤ c' + 1 := by
      have hone : 1 ≤ 10 ^ drop := Nat.one_le_pow _ _ (by omega)
      have hmul := (abs_le.mp (by omega : |(r : ℤ) * (10 ^ drop : ℕ) - c'| ≤ (10 ^ drop : ℕ))).2
      by_contra hgt
      have : (c' + 2) * 10 ^ drop ≤ r * 10 ^ drop := Nat.mul_le_mul_right _ (by omega)
      zify at this hone
      push_cast at hmul
      nlinarith
    simp only [if_neg hr0]
    refine build_ok false (by simp only [mantissaLimit]; omega) (by simp [maxScale]) ?_
    have hcast : (r : ℚ) ≤ 10 ^ 28 := by exact_mod_cast (by omega : r ≤ 10 ^ 28)
    simp only [maxScale]
    norm_num
    linarith
  · rw [toScale, if_neg hfine]
    exact build_ok false (by simp only [mantissaLimit]; omega) (by simp only [maxScale] at hfine; omega)
      (by norm_num at hhigh ⊢; linarith)

theorem div_whole {a b : Money} {k l : ℤ} (ha : a.val = k) (hb : b.val = l) (hk : 0 ≤ k)
    (hklt : k < 10 ^ 28) (hl : 0 < l) (hllt : l ≤ 10 ^ 28) : ∃ r, div a b = .ok r := by
  obtain ⟨hea, hca, hna⟩ := whole_parts ha
  obtain ⟨heb, hcb, hnb⟩ := whole_parts hb
  unfold div
  rw [hca, hcb, if_neg (by omega)]
  split
  · exact ⟨_, rfl⟩
  · rename_i hk0
    obtain ⟨hdig, hnear⟩ := divCoef_near hk0 (by omega : l.natAbs ≠ 0)
    rw [hna, hnb, hea, heb]
    dsimp only at hdig hnear ⊢
    generalize ((digits l.natAbs : ℤ) - digits k.natAbs + prec + 1) = shift at *
    generalize divCoef k.natAbs l.natAbs shift = q at *
    generalize (if q.2 && q.1 % 5 == 0 then q.1 + 1 else q.1) = coef at *
    have hsigns : (decide (k < 0) != decide (l < 0)) = false := by
      simp [not_lt.mpr hk, not_lt.mpr hl.le]
    have hcoef : (10 : ℚ) ^ 28 ≤ coef := by
      have hle : 10 ^ 28 ≤ 10 ^ (digits coef - 1) :=
        Nat.pow_le_pow_right (by omega) (by simp only [prec] at hdig; omega)
      exact_mod_cast hle.trans (pow_digits_le (by rintro rfl; simp [digits, prec] at hdig))
    have hkq : ((k.natAbs : ℕ) : ℚ) = k := by rw [Nat.cast_natAbs, abs_of_nonneg hk]
    have hlq : ((l.natAbs : ℕ) : ℚ) = l := by rw [Nat.cast_natAbs, abs_of_nonneg hl.le]
    have hk1 : (1 : ℚ) ≤ k := by exact_mod_cast (by omega : 1 ≤ k)
    have hl1 : (1 : ℚ) ≤ l := by exact_mod_cast (by omega : 1 ≤ l)
    have hk28 : (k : ℚ) ≤ 10 ^ 28 := by exact_mod_cast hklt.le
    have hl28 : (l : ℚ) ≤ 10 ^ 28 := by exact_mod_cast hllt
    have hpos : (0 : ℚ) < 10 ^ (-shift) := by positivity
    rw [hkq, hlq] at hnear
    obtain ⟨hnear1, hnear2⟩ := abs_lt.mp hnear
    have hcancel : (k / l * 10 ^ shift : ℚ) * 10 ^ (-shift) = k / l := by
      rw [mul_assoc, ← zpow_add₀ (by norm_num), add_neg_cancel, zpow_zero, mul_one]
    have hquot1 : (10 : ℚ) ^ (-28 : ℤ) ≤ k / l := by
      rw [le_div_iff₀ (by linarith)]
      norm_num
      linarith
    have hquot2 : (k / l : ℚ) ≤ 10 ^ 28 := by
      rw [div_le_iff₀ (by linarith)]
      nlinarith
    have hless := mul_le_mul_of_nonneg_right (by linarith : (k / l * 10 ^ shift : ℚ) ≤ 10 / 9 * coef) hpos.le
    have hmore := mul_le_mul_of_nonneg_right (by linarith : (coef : ℚ) ≤ 2 * (k / l * 10 ^ shift)) hpos.le
    rw [hcancel, mul_assoc] at hless
    rw [mul_assoc, hcancel] at hmore
    rw [hsigns, sub_zero, zero_sub]
    refine finishBig_ok hdig ?_ (by linarith)
    linarith

/-! ## Integers -/

theorem toIntegral_ok (a : Money) (ha : 0 ≤ a.val) : ∃ r, a.toIntegral .floor = .ok r := by
  unfold toIntegral
  split
  · exact ⟨_, rfl⟩
  · rw [isNegative_eq_false ha, shiftRoundU128,
      if_neg (by have := a.scale_le; simp only [maxScale] at this; omega)]
    have hle : a.coefficient / 10 ^ a.scale < 2 ^ 96 :=
      (Nat.div_le_self _ _).trans_lt a.mantissa_lt
    refine build_ok false (by simpa [mantissaLimit] using hle) (by decide) ?_
    simp only [Bool.false_and, Bool.false_eq_true, if_false, add_zero, zpow_zero, mul_one]
    exact_mod_cast hle

theorem truncI128_ok {a : Money} {k : ℤ} (ha : a.val = k) : a.truncI128 = .ok k := by
  obtain ⟨hea, hca, hna⟩ := whole_parts ha
  have hlt := natAbs_lt_limit ha
  have hok : ∃ r, a.truncI128 = .ok r := by
    have hexp : a.exponent ≥ 0 := hea.ge
    rw [truncI128, if_pos hexp, hca]
    exact ⟨_, if_pos (by omega)⟩
  obtain ⟨r, hr⟩ := hok
  rw [hr, truncI128_whole ha hr]

theorem fromI128_ok {k : ℤ} (hk : k.natAbs < 2 ^ 96) : ∃ r, fromI128 k = .ok r ∧ r.val = k := by
  obtain ⟨r, hr⟩ := build_ok (e := 0) (decide (k < 0)) (c := k.natAbs) hk (by decide)
    (by rw [zpow_zero, mul_one]; exact_mod_cast hk)
  exact ⟨r, hr, fromI128_val hr⟩

end Money

end TradeEngine
