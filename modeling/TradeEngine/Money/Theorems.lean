import TradeEngine.Money.Rounds

/-!
# Money arithmetic is rounded exactly
-/

namespace TradeEngine

open Lib

namespace Money

/-- `10^-28`, the finest amount. -/
def finest : Money := { cent with scale := maxScale, scale_le := le_rfl, canonical := Or.inr one_ne_zero }

/-- The square of the finest amount rounds to nothing, which a `Money` holds, and the product is refused. -/
theorem finest_squared_refused : mul finest finest = .error .overflow ∧ zero.val = rounded (finest.val * finest.val) := by
  constructor
  · decide +kernel
  · have hsquare : finest.val * finest.val = ((1 : ℕ) : ℚ) * 10 ^ (-56 : ℤ) := by norm_num [finest, cent, val, maxScale]
    have hnearest : roundHalfEven (((1 : ℕ) : ℚ) * 10 ^ (-56 : ℤ) * 10 ^ maxScale) = 0 :=
      roundHalfEven_eq (.inl (by norm_num [maxScale, abs_of_pos]))
    rw [val_zero, rounded, hsquare, roundDigits_natCast (by norm_num [prec]), roundPlaces, hnearest]
    simp

/-- Sums, differences, products and quotients are the exact results to 28 significant digits and then to 28 places,
half to even. They are refused exactly where no amount holds the rounded result, where a result that is not zero
would vanish and where the divisor is zero, and working in 128 bits changes no answer. -/
theorem arithmetic_rounds (a b : Money) :
    Rounds (a.val + b.val) (add a b) ∧ Rounds (a.val - b.val) (sub a b) ∧ Rounds (a.val * b.val) (mul a b) ∧
      (b.val ≠ 0 → Rounds (a.val / b.val) (div a b)) ∧
      (b.val = 0 → div a b = .error (if a.val = 0 then .invalidOperation else .divisionByZero)) ∧
      (∀ negate, addSigned a b negate = addBig a b negate) ∧
      mul a b = finishBig (a.isNegative != b.isNegative) (a.coefficient * b.coefficient) (a.exponent + b.exponent) ∧
      (∀ shift : ℤ, 0 ≤ shift → divCoef a.coefficient b.coefficient shift =
        quotBig (a.coefficient * 10 ^ shift.toNat) b.coefficient) ∧
      ∀ neg coef exp, coef < 2 ^ 128 → finishU128 neg coef exp = finishBig neg coef exp :=
  ⟨add_spec a b, sub_spec a b, mul_spec a b, div_spec, div_zero_divisor, addSigned_eq_addBig a b,
    mul_eq_finishBig a b, fun _ => divCoef_of_nonneg, fun neg _ exp hc => finishU128_eq hc neg exp⟩

end Money

end TradeEngine
