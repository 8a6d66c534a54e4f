import TradeEngine.Lib.HalfEven
import TradeEngine.Money.Rounding

/-!
# What the arithmetic returns

Every operation gives its exact result an exponent and a coefficient, in 128 bits or in big integers; `finishBig`
rounds that to 28 digits, then to 28 places, and refuses what does not fit. Each step here is the rounding of
the number it stands for.
-/

namespace TradeEngine

open Lib

namespace Money

/-! ## Shifting -/

theorem shiftRoundBig_eq (c k : ℕ) (neg : Bool) :
    (shiftRoundBig c k neg .halfEven : ℤ) = roundHalfEven ((c : ℚ) / (10 ^ k : ℕ)) := by
  have hd : 0 < 10 ^ k := by positivity
  have hc : c / 10 ^ k * 10 ^ k + c % 10 ^ k = c := Nat.div_add_mod' c (10 ^ k)
  have hr : c - c / 10 ^ k * 10 ^ k = c % 10 ^ k := by omega
  nth_rewrite 2 [← hc]
  rw [roundHalfEven_div (Nat.mod_lt c hd)]
  simp only [shiftRoundBig, hr, roundsUp]
  generalize 10 ^ k = d, c / 10 ^ k = q, c % 10 ^ k = r
  rcases lt_trichotomy (r * 2) d with h | h | h
  · rw [compare_lt_iff_lt.2 h]
    have hup : ¬(d < r * 2 ∨ r * 2 = d ∧ q % 2 = 1) := by omega
    simp [hup]
  · rw [compare_eq_iff_eq.2 h]
    by_cases hodd : q % 2 = 1 <;> simp [h, hodd]
  · rw [compare_gt_iff_gt.2 h]
    simp [h]

/-- In 128 bits and in big integers a shift rounds alike. -/
theorem shiftRoundU128_eq {c : ℕ} (hc : c < 2 ^ 128) (k : ℕ) (neg : Bool) :
    shiftRoundU128 c k neg .halfEven = shiftRoundBig c k neg .halfEven := by
  have hr : c - c / 10 ^ k * 10 ^ k = c % 10 ^ k := by
    have := Nat.div_add_mod' c (10 ^ k)
    omega
  by_cases hk : k > 38
  · have hpow : 10 ^ 39 ≤ 10 ^ k := Nat.pow_le_pow_right (by omega) hk
    have hlt : c < 10 ^ k := by omega
    have hcmp : compare (c * 2) (10 ^ k) = .lt := compare_lt_iff_lt.2 (by omega)
    simp [shiftRoundU128, hk, shiftRoundBig, Nat.div_eq_of_lt hlt, roundsUp, hcmp]
  · have hpow : 10 ^ k ≤ 10 ^ 38 := Nat.pow_le_pow_right (by omega) (by omega)
    have hmod : c % 10 ^ k < 10 ^ k := Nat.mod_lt c (by positivity)
    have hmul : checkedMul (c % 10 ^ k) 2 = some (c % 10 ^ k * 2) := by
      rw [checkedMul, if_pos (by omega)]
    simp only [shiftRoundU128, hk, if_false, hmul, Option.map_some, shiftRoundBig, hr, roundsUp]
    rcases hcmp : compare (c % 10 ^ k * 2) (10 ^ k) with _ | _ | _
    · simp
    · by_cases hodd : c / 10 ^ k % 2 = 1 <;> simp [hodd]
    · simp

theorem toPrec_eq {c : ℕ} (hc : c < 2 ^ 128) (neg : Bool) (e : ℤ) :
    toPrec shiftRoundU128 neg c e = toPrec shiftRoundBig neg c e := by
  unfold toPrec
  simp only [shiftRoundU128_eq hc]

/-! ## Rounding to the context -/

/-- Dropping `k` digits stays between the powers of ten around a coefficient. -/
theorem shiftRoundBig_bounds {c k p : ℕ} (neg : Bool) (hlow : 10 ^ (k + p) ≤ c) (hhigh : c < 10 ^ (k + p + 1)) :
    10 ^ p ≤ shiftRoundBig c k neg .halfEven ∧ shiftRoundBig c k neg .halfEven ≤ 10 ^ (p + 1) := by
  have hd : 0 < 10 ^ k := by positivity
  have hq : 10 ^ p ≤ c / 10 ^ k := by
    rw [Nat.le_div_iff_mul_le hd, ← pow_add, Nat.add_comm]
    exact hlow
  have hq' : c / 10 ^ k < 10 ^ (p + 1) := by
    rw [Nat.div_lt_iff_lt_mul hd, ← pow_add, Nat.add_comm (p + 1)]
    exact hhigh
  simp only [shiftRoundBig]
  split <;> omega

/-- A coefficient after `toPrec`: at most 28 digits, and the value rounded to them. -/
theorem toPrec_spec {c : ℕ} (hc : c ≠ 0) (neg : Bool) (e : ℤ) :
    ((toPrec shiftRoundBig neg c e).1 : ℚ) * 10 ^ (toPrec shiftRoundBig neg c e).2 = roundDigits prec (c * 10 ^ e : ℚ) ∧
      (toPrec shiftRoundBig neg c e).1 < 10 ^ prec ∧ (toPrec shiftRoundBig neg c e).1 ≠ 0 := by
  by_cases hn : digits c > prec
  · -- `k` digits are dropped
    obtain ⟨k, hk⟩ : ∃ k, digits c = k + prec := ⟨digits c - prec, by omega⟩
    have hsub : digits c - prec = k := by omega
    have hlog : Nat.log 10 c = k + 27 := by
      have hdig : digits c = Nat.log 10 c + 1 := by rw [digits, if_neg hc]
      simp only [prec] at hk
      omega
    have hlow : 10 ^ (k + 27) ≤ c := by rw [← hlog]; exact Nat.pow_log_le_self 10 hc
    have hhigh : c < 10 ^ (k + 27 + 1) := by rw [← hlog]; exact Nat.lt_pow_succ_log_self (by norm_num) c
    obtain ⟨hr27, hr28⟩ := shiftRoundBig_bounds neg hlow hhigh
    have hround := shiftRoundBig_eq c k neg
    have hdigits : roundDigits prec ((c : ℚ) * 10 ^ e) = (shiftRoundBig c k neg .halfEven : ℚ) * 10 ^ (e + k) := by
      have hexp : ((k + 27 : ℕ) : ℤ) + 1 - prec = (k : ℕ) := by simp only [prec]; push_cast; ring
      rw [roundDigits_mul_zpow (n := k + 27) (by exact_mod_cast hlow) (by exact_mod_cast hhigh), hexp, zpow_natCast,
        add_comm (k : ℤ) e]
      congr 1
      have hcast : ((10 ^ k : ℕ) : ℚ) = 10 ^ k := by push_cast; rfl
      rw [← hcast, ← hround]
      simp
    generalize hr : shiftRoundBig c k neg .halfEven = r at hr27 hr28 hdigits
    have hprec : toPrec shiftRoundBig neg c e = if digits r > prec then (r / 10, e + (k : ℕ) + 1) else (r, e + (k : ℕ)) := by
      rw [toPrec, if_pos hn, hsub, hr]
    rw [hprec, hdigits]
    split
    · rename_i hdig
      -- the rounding carried into a 29th digit
      have heq : r = 10 ^ 28 := by
        by_contra hne
        have := digits_le (n := r) (k := 28) (by omega) (by omega)
        simp only [prec] at hdig
        omega
      rw [heq]
      refine ⟨?_, by norm_num [prec], by norm_num⟩
      rw [zpow_add₀ (by norm_num) (e + k) 1]
      norm_num
      ring
    · rename_i hdig
      refine ⟨rfl, ?_, ?_⟩
      · exact (lt_pow_digits r).trans_le (Nat.pow_le_pow_right (by norm_num) (not_lt.1 hdig))
      · have : 0 < 10 ^ 27 := by positivity
        show r ≠ 0
        omega
  · have hlt : c < 10 ^ prec := (lt_pow_digits c).trans_le (Nat.pow_le_pow_right (by norm_num) (not_lt.1 hn))
    have hprec : toPrec shiftRoundBig neg c e = (c, e) := by rw [toPrec, if_neg hn]
    rw [hprec]
    exact ⟨(roundDigits_natCast hlt e).symm, hlt, hc⟩

theorem shiftRoundBig_places (c k s : ℕ) (neg : Bool) :
    (shiftRoundBig c k neg .halfEven : ℚ) * 10 ^ (-(s : ℤ)) = roundPlaces s ((c : ℚ) * 10 ^ (-(k : ℤ) - s)) := by
  have hmul : (c : ℚ) * 10 ^ (-(k : ℤ) - s) * 10 ^ s = c / (10 ^ k : ℕ) := by
    rw [zpow_sub₀ (by norm_num), zpow_neg, zpow_natCast, zpow_natCast]
    push_cast
    field_simp
  rw [roundPlaces, hmul, ← shiftRoundBig_eq c k neg, zpow_neg, zpow_natCast, div_eq_mul_inv]
  simp

/-- A coefficient of at most 28 digits after `toScale`: refused where it would vanish, else its value to 28 places. -/
theorem toScale_spec {c : ℕ} (hc : c < 10 ^ prec) (neg : Bool) (e : ℤ) :
    (toScale neg c e = .error .overflow ∧ roundPlaces maxScale ((c : ℚ) * 10 ^ e) = 0 ∧ e < -28) ∨
      ∃ c' e', toScale neg c e = .ok (c', e') ∧ (c' : ℚ) * 10 ^ e' = roundPlaces maxScale ((c : ℚ) * 10 ^ e) ∧
        (c ≠ 0 → c' ≠ 0) := by
  by_cases he : e < -(maxScale : ℤ)
  · obtain ⟨k, hk⟩ : ∃ k : ℕ, -(maxScale : ℤ) - e = k := ⟨(-(maxScale : ℤ) - e).toNat, by omega⟩
    have hexp : e = -(k : ℤ) - maxScale := by omega
    have hplaces : roundPlaces maxScale ((c : ℚ) * 10 ^ e) =
        (shiftRoundBig c k neg .halfEven : ℚ) * 10 ^ (-(maxScale : ℤ)) := by
      rw [hexp, shiftRoundBig_places]
    have hu : shiftRoundU128 c (-(maxScale : ℤ) - e).toNat neg .halfEven = shiftRoundBig c k neg .halfEven := by
      have hbound : c < 2 ^ 128 := hc.trans (by norm_num [prec])
      rw [hk, Int.toNat_natCast, shiftRoundU128_eq hbound]
    rw [toScale, if_pos he]
    simp only [hu]
    by_cases hz : shiftRoundBig c k neg .halfEven = 0
    · left
      rw [if_pos hz, hplaces, hz]
      simp only [maxScale] at he
      exact ⟨rfl, by simp, by omega⟩
    · right
      rw [if_neg hz]
      exact ⟨_, _, rfl, hplaces.symm, fun _ => hz⟩
  · right
    refine ⟨c, e, by rw [toScale, if_neg he], ?_, id⟩
    have := roundPlaces_zpow (K := ℚ) (s := maxScale) (not_lt.1 he) c
    exact_mod_cast this.symm

/-! ## Building -/

theorem abs_val (a : Money) : |a.val| = a.coefficient / 10 ^ a.scale := by
  rw [val, abs_div, abs_of_pos (by positivity : (0 : ℚ) < 10 ^ a.scale), coefficient]
  congr 1
  rw [← Int.cast_abs, Int.abs_eq_natAbs, Int.cast_natCast]

theorem abs_sign (neg : Bool) (x : ℚ) : |(if neg then -1 else 1) * x| = |x| := by
  cases neg <;> simp

/-- Of one value there is one coefficient that ends in no zero, and a `Money` holds that one. -/
theorem coefficient_eq {a : Money} {c s : ℕ} (hc : c % 10 ≠ 0) (h : |a.val| = c / 10 ^ s) :
    a.coefficient = c ∧ a.scale = s := by
  have hcross : a.coefficient * 10 ^ s = c * 10 ^ a.scale := by
    rw [abs_val, div_eq_div_iff (by positivity) (by positivity)] at h
    exact_mod_cast h
  rcases lt_trichotomy a.scale s with hs | hs | hs
  · obtain ⟨k, rfl⟩ := Nat.exists_eq_add_of_lt hs
    have heq : c = a.coefficient * 10 ^ k * 10 := by
      have hten : 0 < 10 ^ a.scale := by positivity
      apply Nat.eq_of_mul_eq_mul_right hten
      rw [← hcross]
      ring
    omega
  · subst hs
    exact ⟨Nat.eq_of_mul_eq_mul_right (by positivity) hcross, rfl⟩
  · obtain ⟨k, hk⟩ := Nat.exists_eq_add_of_lt hs
    have heq : a.coefficient = c * 10 ^ k * 10 := by
      have hten : 0 < 10 ^ s := by positivity
      apply Nat.eq_of_mul_eq_mul_right hten
      rw [hcross, hk]
      ring
    rcases a.canonical with hz | hm
    · omega
    · rw [coefficient] at heq
      omega

theorem abs_val_lt (a : Money) : |a.val| < mantissaLimit := by
  rw [abs_val, div_lt_iff₀ (by positivity)]
  have hlt : (a.coefficient : ℚ) < mantissaLimit := by exact_mod_cast a.mantissa_lt
  have hone : (1 : ℚ) ≤ 10 ^ a.scale := one_le_pow₀ (by norm_num)
  have hpos : (0 : ℚ) ≤ mantissaLimit := Nat.cast_nonneg _
  nlinarith

/-- Building fails only on a value that no `Money` holds. -/
theorem build_error {n : Bool} {c : ℕ} {e : ℤ} {err : DecErr} (h : build n c e = .error err) :
    err = .overflow ∧ ∀ m : Money, m.val ≠ (if n then -1 else 1) * (c * 10 ^ e : ℚ) := by
  unfold build at h
  split at h
  · cases h
  · rename_i hc
    have hval := strip_val c e
    have hmod := strip_fst_mod e hc
    dsimp only at h
    have hpos : 1 ≤ (strip c e).1 := by omega
    have habs : ∀ m : Money, m.val = (if n then -1 else 1) * (c * 10 ^ e : ℚ) →
        |m.val| = (strip c e).1 * 10 ^ (strip c e).2 := by
      intro m hm
      rw [hm, abs_sign, ← hval, abs_of_nonneg (by positivity)]
    split at h
    · rename_i he
      obtain ⟨k, hk⟩ : ∃ k : ℕ, (strip c e).2 = k := ⟨(strip c e).2.toNat, by omega⟩
      rw [hk] at h habs
      have hwhole : mantissaLimit ≤ (strip c e).1 * 10 ^ k →
          ∀ m : Money, m.val ≠ (if n then -1 else 1) * (c * 10 ^ e : ℚ) := by
        intro hle m hm
        have hlt := m.abs_val_lt
        rw [habs m hm, zpow_natCast] at hlt
        have hlt' : (strip c e).1 * 10 ^ k < mantissaLimit := by exact_mod_cast hlt
        omega
      split at h
      · cases h
        refine ⟨rfl, hwhole ?_⟩
        have hpow : 10 ^ 39 ≤ 10 ^ k := Nat.pow_le_pow_right (by norm_num) (by omega)
        have hmul : 10 ^ k ≤ (strip c e).1 * 10 ^ k := Nat.le_mul_of_pos_left _ hpos
        have hlimit : mantissaLimit ≤ 10 ^ 39 := by norm_num [mantissaLimit]
        omega
      · rw [Int.toNat_natCast, checkedMul] at h
        split at h
        · rename_i hnone
          cases h
          refine ⟨rfl, hwhole ?_⟩
          have hlimit : mantissaLimit ≤ 2 ^ 128 := by norm_num [mantissaLimit]
          split at hnone
          · cases hnone
          · omega
        · rename_i p hsome
          split at hsome
          · cases hsome
            split at h
            · cases h
            · rename_i hbound
              cases h
              exact ⟨rfl, hwhole (not_lt.1 hbound)⟩
          · cases hsome
    · rename_i he
      split at h
      · cases h
      · rename_i hbound
        cases h
        refine ⟨rfl, fun m hm => hbound ?_⟩
        obtain ⟨k, hk⟩ : ∃ k : ℕ, (strip c e).2 = -k := ⟨(-(strip c e).2).toNat, by omega⟩
        have hnat : (-(strip c e).2).toNat = k := by omega
        obtain ⟨hco, hsc⟩ := coefficient_eq (a := m) (s := k) hmod (by
          rw [habs m hm, hk, zpow_neg, zpow_natCast, div_eq_mul_inv])
        rw [hnat, ← hsc, ← hco]
        exact ⟨m.scale_le, m.mantissa_lt⟩

theorem buildBig_val {n : Bool} {c : ℕ} {e : ℤ} {r : Money} (h : buildBig n c e = .ok r) :
    r.val = (if n then -1 else 1) * (c * 10 ^ e) := by
  unfold buildBig at h
  split at h
  · rename_i hz
    cases h
    simp [hz]
  · dsimp only at h
    split at h
    · rw [build_val h, strip_val]
    · cases h

/-! ## The two roundings and the bound -/

/-- A result to 28 significant digits, then to 28 places. -/
def rounded (x : ℚ) : ℚ := roundPlaces maxScale (roundDigits prec x)

theorem rounded_neg (x : ℚ) : rounded (-x) = -rounded x := by
  rw [rounded, roundDigits_neg, roundPlaces_neg, rounded]

theorem rounded_sign (neg : Bool) (x : ℚ) : rounded ((if neg then -1 else 1) * x) = (if neg then -1 else 1) * rounded x := by
  cases neg <;> simp [rounded_neg]

/-- An outcome of the exact value `x`: the rounded value where a `Money` holds it and it has not vanished, and a
refusal otherwise. -/
structure Rounds (x : ℚ) (res : DecResult Money) : Prop where
  ok : ∀ r, res = .ok r ↔ r.val = rounded x ∧ (rounded x = 0 → x = 0)
  error : ∀ err, res = .error err ↔ err = .overflow ∧ ((∀ m : Money, m.val ≠ rounded x) ∨ rounded x = 0 ∧ x ≠ 0)

theorem rounds_ok {x : ℚ} {r : Money} (hr : r.val = rounded x) (hz : rounded x = 0 → x = 0) : Rounds x (.ok r) where
  ok r' := by
    constructor
    · intro h
      cases h
      exact ⟨hr, hz⟩
    · rintro ⟨hr', -⟩
      rw [val_injective (hr.trans hr'.symm)]
  error err := by
    constructor
    · intro h
      cases h
    · rintro ⟨-, hm | ⟨h, hne⟩⟩
      · exact absurd hr (hm r)
      · exact absurd (hz h) hne

theorem rounds_overflow {x : ℚ} (h : (∀ m : Money, m.val ≠ rounded x) ∨ rounded x = 0 ∧ x ≠ 0) :
    Rounds x (.error .overflow) where
  ok r := by
    constructor
    · intro h
      cases h
    · rintro ⟨hr, hz⟩
      rcases h with hm | ⟨h, hne⟩
      · exact absurd hr (hm r)
      · exact absurd (hz h) hne
  error err := by
    constructor
    · intro herr
      cases herr
      exact ⟨rfl, h⟩
    · rintro ⟨rfl, -⟩
      rfl

theorem Rounds.congr {x y : ℚ} {res : DecResult Money} (h : Rounds x res) (hr : rounded y = rounded x) (hz : y = 0 ↔ x = 0) :
    Rounds y res where
  ok r := by rw [hr, hz, h.ok]
  error err := by rw [hr, Ne, hz, h.error]

theorem toPrec_id {shift : ℕ → ℕ → Bool → Round → ℕ} {neg : Bool} {c : ℕ} {e : ℤ} (hc : c < 10 ^ prec) :
    toPrec shift neg c e = (c, e) := by
  have hle : digits c ≤ prec := digits_le (by decide) hc
  rw [toPrec, if_neg (by omega)]

theorem finishBig_eq {neg : Bool} {c : ℕ} {e : ℤ} (hc : c ≠ 0) : finishBig neg c e =
    (do let ce ← toScale neg (toPrec shiftRoundBig neg c e).1 (toPrec shiftRoundBig neg c e).2; build neg ce.1 ce.2) := by
  obtain ⟨-, hlt, hne⟩ := toPrec_spec hc neg e
  rw [finishBig, if_neg hc]
  dsimp only
  rw [finishU128, if_neg hne, toPrec_id hlt]

/-- On a coefficient of 128 bits the two ways to finish agree. -/
theorem finishU128_eq {c : ℕ} (hc : c < 2 ^ 128) (neg : Bool) (e : ℤ) : finishU128 neg c e = finishBig neg c e := by
  by_cases hz : c = 0
  · rw [finishU128, if_pos hz, finishBig, if_pos hz]
  · rw [finishU128, if_neg hz, finishBig_eq hz, toPrec_eq hc]

theorem sign_mul_ne_zero (neg : Bool) {c : ℕ} (hc : c ≠ 0) (e : ℤ) : (if neg then -1 else 1) * ((c : ℚ) * 10 ^ e) ≠ 0 := by
  have hc' : (c : ℚ) ≠ 0 := by exact_mod_cast hc
  have hten : (10 : ℚ) ^ e ≠ 0 := by positivity
  cases neg <;> simp [hc', hten]

theorem finishBig_spec (neg : Bool) (c : ℕ) (e : ℤ) : Rounds ((if neg then -1 else 1) * (c * 10 ^ e)) (finishBig neg c e) := by
  by_cases hc : c = 0
  · subst hc
    rw [finishBig, if_pos rfl]
    exact rounds_ok (by simp [rounded]) (by simp)
  · obtain ⟨hdigits, hlt, hne⟩ := toPrec_spec hc neg e
    have hx := sign_mul_ne_zero neg hc e
    rw [finishBig_eq hc]
    generalize toPrec shiftRoundBig neg c e = ce at hdigits hlt hne
    have hrounded := rounded_sign neg (c * 10 ^ e)
    rw [rounded, rounded, ← hdigits] at hrounded
    rcases toScale_spec hlt neg ce.2 with ⟨herr, hzero, -⟩ | ⟨c', e', hok, hplaces, hne'⟩
    · rw [herr]
      refine rounds_overflow (.inr ⟨?_, hx⟩)
      rw [rounded, hrounded, hzero, mul_zero]
    · rw [hok]
      show Rounds _ (build neg c' e')
      rw [← hplaces] at hrounded
      rcases hb : build neg c' e' with err | r
      · obtain ⟨rfl, hno⟩ := build_error hb
        refine rounds_overflow (.inl fun m => ?_)
        rw [rounded, hrounded]
        exact hno m
      · refine rounds_ok ?_ ?_
        · rw [rounded, hrounded]
          exact build_val hb
        · intro hz
          rw [rounded, hrounded] at hz
          exact absurd hz (sign_mul_ne_zero neg (hne' hne) e')

/-! ## The operations -/

theorem val_parts (a : Money) : a.val = (if a.isNegative then -1 else 1) * (a.coefficient * 10 ^ a.exponent) := by
  have hpow : (10 : ℚ) ^ a.exponent = (10 ^ a.scale)⁻¹ := by rw [exponent, zpow_neg, zpow_natCast]
  rw [hpow, val, div_eq_mul_inv, ← mul_assoc]
  congr 1
  by_cases hneg : a.mantissa < 0
  · have habs : a.mantissa = -((a.mantissa.natAbs : ℕ) : ℤ) := by omega
    have hcast : (a.mantissa : ℚ) = -(a.mantissa.natAbs : ℕ) := by
      rw [← Int.cast_natCast, ← Int.cast_neg, ← habs]
    simp only [isNegative, hneg, decide_true, if_true, coefficient, hcast]
    ring
  · have habs : a.mantissa = ((a.mantissa.natAbs : ℕ) : ℤ) := by omega
    have hcast : (a.mantissa : ℚ) = (a.mantissa.natAbs : ℕ) := by
      rw [← Int.cast_natCast, ← habs]
    simp only [isNegative, hneg, decide_false, Bool.false_eq_true, if_false, coefficient, hcast]
    ring

/-- A coefficient brought to a finer exponent. -/
theorem align {c : ℕ} {e f : ℤ} (h : f ≤ e) : (c : ℚ) * 10 ^ e = ((c * 10 ^ (e - f).toNat : ℕ) : ℚ) * 10 ^ f := by
  have hnat : ((e - f).toNat : ℤ) = e - f := by omega
  push_cast
  rw [← zpow_natCast (10 : ℚ) (e - f).toNat, hnat, mul_assoc, ← zpow_add₀ (by norm_num), sub_add_cancel]

/-- The sign `b` enters a sum with. -/
theorem negate_sign (b : Money) (negate : Bool) : (if negate then -1 else 1) * b.val =
    (if xor b.isNegative (negate && b.coefficient != 0) then -1 else 1) * (b.coefficient * 10 ^ b.exponent : ℚ) := by
  rw [val_parts]
  by_cases hz : b.coefficient = 0
  · simp [hz]
  · cases negate <;> cases b.isNegative <;> simp [hz]

theorem addBig_spec (a b : Money) (negate : Bool) :
    Rounds (a.val + (if negate then -1 else 1) * b.val) (addBig a b negate) := by
  rw [negate_sign, val_parts a, align (min_le_left a.exponent b.exponent), align (min_le_right a.exponent b.exponent)]
  simp only [addBig]
  generalize min a.exponent b.exponent = e
  generalize a.coefficient * 10 ^ (a.exponent - e).toNat = x
  generalize b.coefficient * 10 ^ (b.exponent - e).toNat = y
  generalize a.isNegative = na
  generalize xor b.isNegative (negate && b.coefficient != 0) = nb
  by_cases hsign : na = nb
  · subst hsign
    have hsum := finishBig_spec na (x + y) e
    have hx : (if na then -1 else 1) * ((x : ℚ) * 10 ^ e) + (if na then -1 else 1) * (y * 10 ^ e) =
        (if na then -1 else 1) * (((x + y : ℕ) : ℚ) * 10 ^ e) := by
      push_cast
      ring
    rwa [if_pos rfl, hx]
  · have hnb : nb = !na := by
      revert hsign
      cases na <;> cases nb <;> decide
    rw [if_neg hsign, hnb]
    rcases lt_trichotomy x y with hlt | rfl | hlt
    · have hsub := finishBig_spec (!na) (y - x) e
      have hx : (if na then -1 else 1) * ((x : ℚ) * 10 ^ e) + (if !na then -1 else 1) * (y * 10 ^ e) =
          (if !na then -1 else 1) * (((y - x : ℕ) : ℚ) * 10 ^ e) := by
        rw [Nat.cast_sub hlt.le]
        cases na <;> simp <;> ring
      rwa [compare_lt_iff_lt.2 hlt, hx]
    · have hzero := finishBig_spec false 0 e
      have hx : (if na then -1 else 1) * ((x : ℚ) * 10 ^ e) + (if !na then -1 else 1) * (x * 10 ^ e) =
          (if false then -1 else 1) * (((0 : ℕ) : ℚ) * 10 ^ e) := by
        cases na <;> simp
      rwa [compare_eq_iff_eq.2 rfl, hx]
    · have hsub := finishBig_spec na (x - y) e
      have hx : (if na then -1 else 1) * ((x : ℚ) * 10 ^ e) + (if !na then -1 else 1) * (y * 10 ^ e) =
          (if na then -1 else 1) * (((x - y : ℕ) : ℚ) * 10 ^ e) := by
        rw [Nat.cast_sub hlt.le]
        cases na <;> simp <;> ring
      rwa [compare_gt_iff_gt.2 hlt, hx]

theorem finishBig_zero (n m : Bool) (e : ℤ) : finishBig n 0 e = finishBig m 0 e := by
  rw [finishBig, if_pos rfl, finishBig, if_pos rfl]

/-- The sign of a zero does not show. -/
theorem finishU128_sign {c : ℕ} (hc : c < 2 ^ 128) (n : Bool) (e : ℤ) : finishU128 (n && c != 0) c e = finishBig n c e := by
  rw [finishU128_eq hc]
  by_cases hz : c = 0
  · subst hz
    exact finishBig_zero _ _ _
  · have hne : (c != 0) = true := by simpa using hz
    rw [hne, Bool.and_true]

theorem checkedMul_eq_some {a b p : ℕ} : checkedMul a b = some p ↔ a * b < 2 ^ 128 ∧ p = a * b := by
  unfold checkedMul
  split <;> simp_all [eq_comm]

theorem aligned_eq_some {c i x : ℕ} (h : (pow10 i).bind (checkedMul c) = some x) : x < 2 ^ 128 ∧ x = c * 10 ^ i := by
  unfold pow10 at h
  split at h
  · obtain ⟨hlt, rfl⟩ := checkedMul_eq_some.1 h
    exact ⟨hlt, rfl⟩
  · cases h

/-- Sums in 128 bits are the sums in big integers. -/
theorem addSigned_eq_addBig (a b : Money) (negate : Bool) : addSigned a b negate = addBig a b negate := by
  simp only [addSigned]
  split
  · rename_i x y hx hy
    obtain ⟨hxlt, hx⟩ := aligned_eq_some hx
    obtain ⟨hylt, hy⟩ := aligned_eq_some hy
    simp only [addBig, ← hx, ← hy]
    generalize xor b.isNegative (negate && b.coefficient != 0) = nb
    split
    · rename_i hsign
      split
      · rename_i sum hsum
        unfold checkedAdd at hsum
        split at hsum
        · rename_i hlt
          cases hsum
          exact finishU128_sign hlt _ _
        · cases hsum
      · rfl
    · rename_i hsign
      split
      · rename_i hge
        rw [finishU128_sign (by omega)]
        rcases hge.lt_or_eq with hlt | heq
        · rw [compare_gt_iff_gt.2 hlt]
        · rw [compare_eq_iff_eq.2 heq.symm, heq, Nat.sub_self]
          exact finishBig_zero _ _ _
      · rename_i hge
        rw [finishU128_sign (by omega), compare_lt_iff_lt.2 (not_le.1 hge)]
  · rfl

theorem add_spec (a b : Money) : Rounds (a.val + b.val) (add a b) := by
  have hspec := addBig_spec a b false
  rw [← addSigned_eq_addBig] at hspec
  simpa [add] using hspec

theorem sub_spec (a b : Money) : Rounds (a.val - b.val) (sub a b) := by
  have hspec := addBig_spec a b true
  rw [← addSigned_eq_addBig] at hspec
  simpa [sub, sub_eq_add_neg] using hspec

/-- Products in 128 bits are the products in big integers. -/
theorem mul_eq_finishBig (a b : Money) : mul a b =
    finishBig (a.isNegative != b.isNegative) (a.coefficient * b.coefficient) (a.exponent + b.exponent) := by
  simp only [mul]
  split
  · rename_i p hp
    obtain ⟨hlt, rfl⟩ := checkedMul_eq_some.1 hp
    exact finishU128_eq hlt _ _
  · rfl

theorem mul_spec (a b : Money) : Rounds (a.val * b.val) (mul a b) := by
  rw [mul_eq_finishBig]
  have hspec := finishBig_spec (a.isNegative != b.isNegative) (a.coefficient * b.coefficient) (a.exponent + b.exponent)
  convert hspec using 1
  rw [val_parts a, val_parts b, zpow_add₀ (by norm_num)]
  push_cast
  cases a.isNegative <;> cases b.isNegative <;> simp <;> ring

/-- Quotients: cut to 29 digits or more and made sticky, they round as the exact ones. -/
theorem div_spec {a b : Money} (hb : b.val ≠ 0) : Rounds (a.val / b.val) (div a b) := by
  have hb0 : b.coefficient ≠ 0 := by
    intro hz
    rw [val_parts, hz] at hb
    simp at hb
  rw [div, if_neg hb0]
  split
  · rename_i ha0
    have ha : a.val = 0 := by rw [val_parts, ha0]; simp
    rw [ha, zero_div]
    exact rounds_ok (by simp [rounded]) (by simp)
  · rename_i ha0
    obtain ⟨num, den, hden, hquot, hnd⟩ := divCoef_quot a.coefficient hb0
      (digits b.coefficient - digits a.coefficient + prec + 1)
    have hlarge := shifted_large ha0 hb0
    rw [← hnd] at hlarge
    dsimp only
    rw [hquot]
    generalize ((digits b.coefficient : ℤ) - digits a.coefficient + prec + 1) = shift at hnd
    have hval : a.val / b.val = (if a.isNegative != b.isNegative then -1 else 1) *
        ((num : ℚ) / den * 10 ^ (a.exponent - b.exponent - shift)) := by
      have hb' : (b.coefficient : ℚ) ≠ 0 := by exact_mod_cast hb0
      rw [hnd, val_parts a, val_parts b, mul_assoc (_ / _), ← zpow_add₀ (by norm_num), add_sub_cancel,
        zpow_sub₀ (by norm_num)]
      cases a.isNegative <;> cases b.isNegative <;> simp <;> field_simp
    generalize (a.isNegative != b.isNegative) = neg at hval
    generalize a.exponent - b.exponent - shift = e at hval
    have hden' : (0 : ℚ) < den := by exact_mod_cast hden
    have hnum : (num : ℚ) = (num / den : ℕ) * den + (num % den : ℕ) := by
      exact_mod_cast (Nat.div_add_mod' num den).symm
    by_cases hexact : num % den = 0
    · have hwhole : (num : ℚ) / den = (num / den : ℕ) := by
        rw [div_eq_iff hden'.ne', hnum, hexact]
        simp
      have hspec := finishBig_spec neg (num / den) e
      rw [← hwhole, ← hval] at hspec
      simpa [hexact] using hspec
    · have hsticky : (if (num % den != 0 && num / den % 5 == 0) = true then num / den + 1 else num / den) =
          sticky (num / den) := by
        simp [hexact, sticky]
      rw [hsticky]
      have hrem : (0 : ℚ) < (num % den : ℕ) := by exact_mod_cast Nat.pos_of_ne_zero hexact
      have hrem' : ((num % den : ℕ) : ℚ) < den := by exact_mod_cast Nat.mod_lt num hden
      have hlow : ((num / den : ℕ) : ℚ) < num / den := by
        rw [lt_div_iff₀ hden']
        linarith
      have hhigh : (num : ℚ) / den < (num / den : ℕ) + 1 := by
        rw [div_lt_iff₀ hden', add_mul, one_mul]
        linarith
      have hq : 10 ^ prec ≤ num / den := by
        rw [Nat.le_div_iff_mul_le hden]
        rw [le_div_iff₀ hden'] at hlarge
        exact_mod_cast hlarge
      have hne : sticky (num / den) ≠ 0 := by
        have hpos : 0 < 10 ^ prec := by positivity
        unfold sticky
        split <;> omega
      refine (finishBig_spec neg (sticky (num / den)) e).congr ?_ ?_
      · rw [hval, rounded_sign, rounded_sign, rounded, rounded, roundDigits_sticky hq hlow hhigh]
      · have ha : a.val ≠ 0 := by
          rw [val_parts]
          exact sign_mul_ne_zero _ ha0 _
        exact iff_of_false (div_ne_zero ha hb) (sign_mul_ne_zero neg hne e)

theorem div_zero_divisor {a b : Money} (hb : b.val = 0) :
    div a b = .error (if a.val = 0 then .invalidOperation else .divisionByZero) := by
  have hiff : ∀ m : Money, m.val = 0 ↔ m.coefficient = 0 := by
    intro m
    constructor
    · intro hm
      by_contra hne
      exact sign_mul_ne_zero m.isNegative hne m.exponent (m.val_parts ▸ hm)
    · intro hm
      rw [val_parts, hm]
      simp
  rw [div, if_pos ((hiff b).1 hb)]
  simp only [hiff a]

/-! ## Whole results -/

theorem rounded_small {k : ℕ} (hk : k < 10 ^ prec) : rounded (k : ℚ) = k := by
  have hdigits := roundDigits_natCast (K := ℚ) hk 0
  rw [zpow_zero, mul_one] at hdigits
  have hplaces := roundPlaces_zpow (K := ℚ) (s := maxScale) (e := 0) (by decide) k
  rw [zpow_zero, mul_one, Int.cast_natCast] at hplaces
  rw [rounded, hdigits, hplaces]

/-- A whole number of more digits stays a whole number of more digits. -/
theorem rounded_large {k : ℕ} (hk : 10 ^ prec ≤ k) : ∃ m : ℕ, rounded (k : ℚ) = m ∧ 10 ^ prec ≤ m := by
  have hkq : (10 : ℚ) ^ prec ≤ k := by exact_mod_cast hk
  have hpos : (0 : ℚ) < k := lt_of_lt_of_le (by positivity) hkq
  have hlog : (prec : ℤ) ≤ Int.log 10 (k : ℚ) := by
    rw [← Int.zpow_le_iff_le_log (by decide) hpos, zpow_natCast]
    exact_mod_cast hkq
  obtain ⟨g, hg⟩ : ∃ g : ℕ, Int.log 10 (k : ℚ) + 1 - prec = g + 1 := ⟨(Int.log 10 (k : ℚ) - prec).toNat, by omega⟩
  have hten : (10 : ℚ) ^ ((g : ℤ) + 1) = ((10 ^ (g + 1) : ℕ) : ℚ) := by
    push_cast
    exact_mod_cast zpow_natCast (10 : ℚ) (g + 1)
  -- the coefficient kept has all its digits
  have hcoef : (10 : ℚ) ^ (prec - 1) ≤ (k : ℚ) / 10 ^ ((g : ℤ) + 1) := by
    rw [le_div_iff₀ (by positivity)]
    have hself := Int.zpow_log_le_self (b := 10) (by decide) hpos
    have hexp : Int.log 10 (k : ℚ) = ((prec - 1 : ℕ) : ℤ) + ((g : ℤ) + 1) := by
      simp only [prec] at hg ⊢
      omega
    rw [hexp, zpow_add₀ (by norm_num), zpow_natCast] at hself
    exact_mod_cast hself
  have hnear := isNearest_roundHalfEven ((k : ℚ) / 10 ^ ((g : ℤ) + 1))
  have hround : (10 : ℤ) ^ (prec - 1) ≤ roundHalfEven ((k : ℚ) / 10 ^ ((g : ℤ) + 1)) := by
    by_contra hlt
    have hlt' : (roundHalfEven ((k : ℚ) / 10 ^ ((g : ℤ) + 1)) : ℚ) + 1 ≤ 10 ^ (prec - 1) := by
      exact_mod_cast not_le.1 hlt
    have hle : 2 * |(roundHalfEven ((k : ℚ) / 10 ^ ((g : ℤ) + 1)) : ℚ) - (k : ℚ) / 10 ^ ((g : ℤ) + 1)| ≤ 1 :=
      hnear.elim le_of_lt fun h => h.1.le
    have habs := neg_abs_le ((roundHalfEven ((k : ℚ) / 10 ^ ((g : ℤ) + 1)) : ℚ) - (k : ℚ) / 10 ^ ((g : ℤ) + 1))
    linarith
  obtain ⟨m, hm⟩ := Int.eq_ofNat_of_zero_le ((by positivity : (0 : ℤ) ≤ 10 ^ (prec - 1)).trans hround)
  have hdigits : roundDigits prec (k : ℚ) = ((m : ℤ) : ℚ) * 10 ^ ((g : ℤ) + 1) := by
    rw [roundDigits, abs_of_pos hpos, hg, hm]
  refine ⟨m * 10 ^ (g + 1), ?_, ?_⟩
  · rw [rounded, hdigits, roundPlaces_zpow (by omega), hten]
    push_cast
    ring
  · have hm' : 10 ^ (prec - 1) ≤ m := by
      rw [hm] at hround
      exact_mod_cast hround
    calc 10 ^ prec = 10 ^ (prec - 1) * 10 := by decide
      _ ≤ m * 10 ^ (g + 1) := Nat.mul_le_mul hm' (by rw [pow_succ]; exact Nat.le_mul_of_pos_left _ (by positivity))

/-- What is left of a whole number: itself up to 28 digits, else a whole number of the same sign beyond them. -/
theorem rounded_whole (k : ℤ) : ∃ m : ℤ, rounded (k : ℚ) = m ∧ (k.natAbs < 10 ^ prec → m = k) ∧
    (10 ^ prec ≤ k.natAbs → 10 ^ prec ≤ m.natAbs) ∧ (0 ≤ m ↔ 0 ≤ k) := by
  have hnat : ∀ n : ℕ, ∃ m : ℕ, rounded (n : ℚ) = m ∧ (n < 10 ^ prec → m = n) ∧ (10 ^ prec ≤ n → 10 ^ prec ≤ m) := by
    intro n
    by_cases hn : n < 10 ^ prec
    · exact ⟨n, rounded_small hn, fun _ => rfl, fun h => absurd hn (not_lt.2 h)⟩
    · obtain ⟨m, hm, hle⟩ := rounded_large (not_lt.1 hn)
      exact ⟨m, hm, fun h => absurd h hn, fun _ => hle⟩
  have hprec : 0 < 10 ^ prec := by positivity
  rcases Int.eq_nat_or_neg k with ⟨n, rfl | rfl⟩
  · obtain ⟨m, hm, hsmall, hlarge⟩ := hnat n
    exact ⟨m, by exact_mod_cast hm, fun h => by rw [hsmall (by simpa using h)], fun h => by simpa using hlarge (by simpa using h),
      by simp⟩
  · obtain ⟨m, hm, hsmall, hlarge⟩ := hnat n
    refine ⟨-m, ?_, ?_, ?_, ?_⟩
    · push_cast
      rw [rounded_neg, hm]
    · intro h
      rw [hsmall (by simpa using h)]
    · intro h
      simpa using hlarge (by simpa using h)
    · have hzero : m = 0 ↔ n = 0 := by
        rcases Nat.lt_or_ge n (10 ^ prec) with h | h
        · rw [hsmall h]
        · have := hlarge h
          omega
      omega

end Money

end TradeEngine
