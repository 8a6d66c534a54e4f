import Mathlib.Tactic

/-!
# Decimal digits to a width

A number written with leading zeros to a fixed width.
-/

namespace TradeEngine.Lib

/-- The last digits of a number, to a width. -/
def fixedDigits : Nat → Nat → List Char
  | 0, _ => []
  | w + 1, n => fixedDigits w (n / 10) ++ [Nat.digitChar (n % 10)]

@[simp] theorem length_fixedDigits (w n : Nat) : (fixedDigits w n).length = w := by
  induction w generalizing n with
  | zero => rfl
  | succ w ih => simp [fixedDigits, ih]

theorem fixedDigits_zero (w : Nat) : fixedDigits w 0 = List.replicate w '0' := by
  induction w with
  | zero => rfl
  | succ w ih => rw [fixedDigits, ih, List.replicate_succ']; rfl

theorem mem_fixedDigits {w n : Nat} {c : Char} (h : c ∈ fixedDigits w n) : ∃ k < 10, c = Nat.digitChar k := by
  induction w generalizing n with
  | zero => cases h
  | succ w ih =>
    rcases List.mem_append.1 h with h | h
    · exact ih h
    · exact ⟨n % 10, Nat.mod_lt _ (by norm_num), List.mem_singleton.1 h⟩

/-- Zeros up to the width before the digits of the number. -/
theorem replicate_append_toDigits {w n : Nat} (hw : 0 < w) (hn : n < 10 ^ w) :
    List.replicate (w - (Nat.toDigits 10 n).length) '0' ++ Nat.toDigits 10 n = fixedDigits w n := by
  induction w generalizing n with
  | zero => exact absurd hw (lt_irrefl 0)
  | succ w ih =>
    by_cases hlt : n < 10
    · have hdigits : Nat.toDigits 10 n = [Nat.digitChar n] := Nat.toDigits_of_lt_base hlt
      rw [fixedDigits, hdigits, Nat.div_eq_of_lt hlt, Nat.mod_eq_of_lt hlt, fixedDigits_zero]
      rfl
    · have hle : 10 ≤ n := not_lt.1 hlt
      have hpos : 0 < w := by
        rcases Nat.eq_zero_or_pos w with rfl | hw
        · exact absurd hn (not_lt.2 (by simpa using hle))
        · exact hw
      have hdiv : n / 10 < 10 ^ w := by
        rw [Nat.div_lt_iff_lt_mul (by norm_num)]
        simpa [pow_succ] using hn
      have hlen : ∀ l : List Char, w + 1 - (l ++ [Nat.digitChar (n % 10)]).length = w - l.length := by
        intro l
        rw [List.length_append, List.length_singleton]
        omega
      rw [Nat.toDigits_of_base_le (by norm_num) hle, hlen, ← List.append_assoc, ih hpos hdiv, fixedDigits]

end TradeEngine.Lib
