import TradeEngine.Lib.Except
import TradeEngine.Money.Basic

/-!
# Order and exactness of money

Comparison is comparison of values, and a value has one spelling. `Arith` collects the operations a
ledger run uses; `Arith.exact` is the same arithmetic refusing every result that was rounded, so a
run it accepts is a run in which nothing was rounded.
-/

namespace TradeEngine

open Lib

namespace Money

variable {a b : Money}

private theorem pow10_pos (n : Nat) : (0 : ℚ) < 10 ^ n := by positivity

theorem cross_lt : a.mantissa * 10 ^ b.scale < b.mantissa * 10 ^ a.scale ↔ a.val < b.val := by
  unfold val
  rw [div_lt_div_iff₀ (pow10_pos _) (pow10_pos _)]
  exact_mod_cast Iff.rfl

theorem cross_eq : a.mantissa * 10 ^ b.scale = b.mantissa * 10 ^ a.scale ↔ a.val = b.val := by
  unfold val
  rw [div_eq_div_iff (pow10_pos _).ne' (pow10_pos _).ne']
  exact_mod_cast Iff.rfl

@[simp] theorem lt_iff : lt a b = true ↔ a.val < b.val := by
  rw [← cross_lt, lt, cmpOrd, beq_iff_eq, compare_lt_iff_lt]

@[simp] theorem gt_iff : gt a b = true ↔ b.val < a.val := by
  rw [← cross_lt, gt, cmpOrd, beq_iff_eq, compare_gt_iff_gt]

@[simp] theorem eqNum_iff : eqNum a b = true ↔ a.val = b.val := by
  rw [← cross_eq, eqNum, cmpOrd, beq_iff_eq, compare_eq_iff_eq]

@[simp] theorem le_iff : le a b = true ↔ a.val ≤ b.val := by
  have h : le a b = !gt a b := rfl
  rw [h, Bool.not_eq_true', Bool.eq_false_iff, Ne, gt_iff, not_lt]

@[simp] theorem ge_iff : ge a b = true ↔ b.val ≤ a.val := by
  have h : ge a b = !lt a b := rfl
  rw [h, Bool.not_eq_true', Bool.eq_false_iff, Ne, lt_iff, not_lt]

@[simp] theorem ne_iff : ne a b = true ↔ a.val ≠ b.val := by
  rw [ne, Bool.not_eq_true', Bool.eq_false_iff, Ne, eqNum_iff]

@[simp] theorem val_zero : zero.val = 0 := by simp [val, zero]

theorem val_pos_iff : 0 < a.val ↔ 0 < a.mantissa := by
  unfold val
  rw [div_pos_iff_of_pos_right (pow10_pos _)]
  exact_mod_cast Iff.rfl

private theorem scale_le_of_cross (h : a.mantissa * 10 ^ b.scale = b.mantissa * 10 ^ a.scale) :
    a.scale ≤ b.scale := by
  rcases a.canonical with hs | hm
  · omega
  · by_contra hlt
    -- the finer mantissa would end in a zero
    obtain ⟨k, hk⟩ : ∃ k, a.scale = b.scale + (k + 1) := ⟨a.scale - b.scale - 1, by omega⟩
    have h10 : (10 : Int) ^ b.scale ≠ 0 := by positivity
    have : a.mantissa = b.mantissa * 10 ^ (k + 1) := by
      refine mul_right_cancel₀ h10 ?_
      rw [h, hk, pow_add]; ring
    exact hm (by rw [this, pow_succ, ← mul_assoc, Int.mul_emod_left])

/-- Equal values are one canonical form. -/
theorem val_injective : Function.Injective val := by
  intro a b h
  have hc := cross_eq.mpr h
  have hs : a.scale = b.scale := le_antisymm (scale_le_of_cross hc) (scale_le_of_cross hc.symm)
  have hm : a.mantissa = b.mantissa := by
    rw [hs] at hc
    exact mul_right_cancel₀ (by positivity) hc
  obtain ⟨m, s, _, _, _⟩ := a
  obtain ⟨m', s', _, _, _⟩ := b
  simp only at hs hm
  subst hs hm
  rfl

theorem eqNum_eq_decide : eqNum a b = decide (a = b) := by
  rw [Bool.eq_iff_iff, eqNum_iff, decide_eq_true_eq, val_injective.eq_iff]

/-! ## Building keeps the value -/

theorem stripZeros_val (n c : Nat) (e : Int) :
    ((stripZeros n c e).1 : ℚ) * 10 ^ (stripZeros n c e).2 = c * 10 ^ e := by
  induction n generalizing c e with
  | zero => rfl
  | succ n ih =>
      unfold stripZeros
      split
      · rename_i h
        obtain ⟨k, rfl⟩ : 10 ∣ c := Nat.dvd_of_mod_eq_zero h
        rw [ih, Nat.mul_div_cancel_left k (by omega), zpow_add₀ (by norm_num)]
        push_cast
        ring
      · rfl

theorem strip_val (c : Nat) (e : Int) : ((strip c e).1 : ℚ) * 10 ^ (strip c e).2 = c * 10 ^ e :=
  stripZeros_val ..

theorem signed_cast (n : Bool) (c : Nat) : (signed n c : ℚ) = (if n then -1 else 1) * c := by
  cases n <;> simp [signed]

/-- Building is exact: the value is the coefficient at its exponent. -/
theorem build_val {n : Bool} {c : Nat} {e : Int} (h : build n c e = .ok a) :
    a.val = (if n then -1 else 1) * (c * 10 ^ e) := by
  unfold build at h
  split at h
  · rename_i hz
    cases h
    simp [hz]
  · simp only at h
    rw [← strip_val c e]
    split at h
    · rename_i hpos
      split at h
      · cases h
      · split at h
        · cases h
        · rename_i hm
          obtain ⟨k, hk⟩ : ∃ k : Nat, (strip c e).2 = k := ⟨(strip c e).2.toNat, by omega⟩
          simp only [checkedMul, hk, Int.toNat_natCast, Option.ite_none_right_eq_some,
            Option.some.injEq] at hm
          split at h
          · cases h
            simp only [val, signed_cast, hk, ← hm.2, pow_zero, div_one, zpow_natCast]
            push_cast
            ring
          · cases h
    · rename_i hpos
      split at h
      · cases h
        obtain ⟨k, hk⟩ : ∃ k : Nat, (strip c e).2 = -(k : Int) :=
          ⟨(-(strip c e).2).toNat, by omega⟩
        simp only [val, signed_cast, hk, neg_neg, Int.toNat_natCast, zpow_neg, zpow_natCast]
        field_simp
      · cases h

theorem fromI128_val {n : Int} (h : fromI128 n = .ok a) : a.val = n := by
  have hv := build_val h
  rw [zpow_zero, mul_one] at hv
  rw [hv]
  have hc : ((n.natAbs : ℕ) : ℚ) = |(n : ℚ)| := by rw [Nat.cast_natAbs, Int.cast_abs]
  rcases lt_or_ge n 0 with hn | hn
  · have hq : (n : ℚ) < 0 := by exact_mod_cast hn
    simp only [hn, decide_true, if_true, hc, abs_of_neg hq]
    ring
  · have hq : (0 : ℚ) ≤ n := by exact_mod_cast hn
    simp only [not_lt.mpr hn, decide_false, Bool.false_eq_true, if_false, one_mul, hc,
      abs_of_nonneg hq]

/-! ## Signs -/

theorem isNegative_eq_false (h : 0 ≤ a.val) : a.isNegative = false := by
  refine decide_eq_false fun hm => ?_
  have hlt : a.val < 0 := div_neg_of_neg_of_pos (by exact_mod_cast hm) (pow10_pos _)
  exact absurd h (not_le.mpr hlt)

theorem finishU128_nonneg {c : Nat} {e : Int} (h : finishU128 false c e = .ok a) : 0 ≤ a.val := by
  unfold finishU128 at h
  split at h
  · cases h
    simp
  · simp only [bind_eq_ok] at h
    obtain ⟨ce, -, h⟩ := h
    rw [build_val h]
    simp only [Bool.false_eq_true, if_false, one_mul]
    positivity

theorem finishBig_nonneg {c : Nat} {e : Int} (h : finishBig false c e = .ok a) : 0 ≤ a.val := by
  unfold finishBig at h
  split at h
  · cases h
    simp
  · exact finishU128_nonneg h

theorem add_nonneg {r : Money} (ha : 0 ≤ a.val) (hb : 0 ≤ b.val) (h : add a b = .ok r) :
    0 ≤ r.val := by
  have hbig : ∀ {r}, addBig a b false = .ok r → 0 ≤ r.val := by
    intro r h
    simp only [addBig, isNegative_eq_false ha, isNegative_eq_false hb, Bool.false_and, Bool.xor_false,
      if_true] at h
    exact finishBig_nonneg h
  unfold add addSigned at h
  simp only [isNegative_eq_false ha, isNegative_eq_false hb, Bool.false_and, Bool.xor_false,
    if_true] at h
  split at h
  · split at h
    · exact finishU128_nonneg h
    · exact hbig h
  · exact hbig h

theorem div_nonneg {r : Money} (ha : 0 ≤ a.val) (hb : 0 ≤ b.val) (h : div a b = .ok r) :
    0 ≤ r.val := by
  unfold div at h
  split at h
  · cases h
  · split at h
    · cases h
      simp
    · simp only [isNegative_eq_false ha, isNegative_eq_false hb, bne_self_eq_false] at h
      exact finishBig_nonneg h

end Money

/-- The two `rust_decimal` operations the option rules use; `none` is an overflow. -/
structure RustDecimal where
  checkedAdd : Money → Money → Option Money
  checkedSub : Money → Money → Option Money

/-- The arithmetic of one ledger run. -/
structure Arith where
  add : Money → Money → DecResult Money
  sub : Money → Money → DecResult Money
  mul : Money → Money → DecResult Money
  div : Money → Money → DecResult Money
  neg : Money → DecResult Money
  abs : Money → DecResult Money
  decAdd : Money → Money → DecResult Money
  decSub : Money → Money → DecResult Money

/-- An integer operand is converted first; the conversion is exact or refused. -/
def Arith.mulI (A : Arith) (a : Money) (n : Int) : DecResult Money := do
  A.mul a (← Money.fromI128 n)

def Arith.divI (A : Arith) (a : Money) (n : Int) : DecResult Money := do
  A.div a (← Money.fromI128 n)

def Arith.addI (A : Arith) (a : Money) (n : Int) : DecResult Money := do
  A.add a (← Money.fromI128 n)

/-- The arithmetic the program runs on. -/
def Arith.code (D : RustDecimal) : Arith where
  add := Money.add
  sub := Money.sub
  mul := Money.mul
  div := Money.div
  neg := Money.neg
  abs := Money.abs
  decAdd a b := (D.checkedAdd a b).elim (.error .overflow) .ok
  decSub a b := (D.checkedSub a b).elim (.error .overflow) .ok

/-- Keep a result whose value is `q`; refuse a rounded one. -/
def keepExact (q : ℚ) (x : DecResult Money) : DecResult Money := do
  let r ← x
  if r.val = q then .ok r else .error .overflow

def Arith.exact (A : Arith) : Arith where
  add a b := keepExact (a.val + b.val) (A.add a b)
  sub a b := keepExact (a.val - b.val) (A.sub a b)
  mul a b := keepExact (a.val * b.val) (A.mul a b)
  div a b := keepExact (a.val / b.val) (A.div a b)
  neg a := keepExact (-a.val) (A.neg a)
  abs a := keepExact |a.val| (A.abs a)
  decAdd a b := keepExact (a.val + b.val) (A.decAdd a b)
  decSub a b := keepExact (a.val - b.val) (A.decSub a b)

/-- Refusing every rounded sum, difference and product; a quotient may be rounded. -/
def Arith.exactButDiv (A : Arith) : Arith := { A.exact with div := A.div }

theorem keepExact_eq_ok {q : ℚ} {x : DecResult Money} {r : Money} :
    keepExact q x = .ok r ↔ x = .ok r ∧ r.val = q := by
  unfold keepExact
  rw [bind_eq_ok]
  constructor
  · rintro ⟨a, ha, h⟩
    split at h
    · cases h; exact ⟨ha, by assumption⟩
    · cases h
  · rintro ⟨h, hq⟩
    exact ⟨r, h, if_pos hq⟩

theorem keepExact_refuses {q : ℚ} {x : DecResult Money} : Refuses (keepExact q x) x :=
  fun _ h => (keepExact_eq_ok.mp h).1

/-- `A` gives a result only where `B` gives the same one, operation by operation. -/
structure Arith.Le (A B : Arith) : Prop where
  add : ∀ a b, Refuses (A.add a b) (B.add a b)
  sub : ∀ a b, Refuses (A.sub a b) (B.sub a b)
  mul : ∀ a b, Refuses (A.mul a b) (B.mul a b)
  div : ∀ a b, Refuses (A.div a b) (B.div a b)
  neg : ∀ a, Refuses (A.neg a) (B.neg a)
  abs : ∀ a, Refuses (A.abs a) (B.abs a)
  decAdd : ∀ a b, Refuses (A.decAdd a b) (B.decAdd a b)
  decSub : ∀ a b, Refuses (A.decSub a b) (B.decSub a b)

theorem Arith.exact_le (A : Arith) : A.exact.Le A where
  add _ _ := keepExact_refuses
  sub _ _ := keepExact_refuses
  mul _ _ := keepExact_refuses
  div _ _ := keepExact_refuses
  neg _ := keepExact_refuses
  abs _ := keepExact_refuses
  decAdd _ _ := keepExact_refuses
  decSub _ _ := keepExact_refuses

theorem Arith.exactButDiv_le (A : Arith) : A.exactButDiv.Le A :=
  { A.exact_le with div := fun _ _ => Refuses.refl }

/-! ## Exact results -/

section Exact

variable {A : Arith} {a b r : Money}

theorem Arith.exact_add (h : A.exact.add a b = .ok r) : r.val = a.val + b.val :=
  (keepExact_eq_ok.mp h).2

theorem Arith.exact_sub (h : A.exact.sub a b = .ok r) : r.val = a.val - b.val :=
  (keepExact_eq_ok.mp h).2

theorem Arith.exact_mul (h : A.exact.mul a b = .ok r) : r.val = a.val * b.val :=
  (keepExact_eq_ok.mp h).2

theorem Arith.exact_div (h : A.exact.div a b = .ok r) : r.val = a.val / b.val :=
  (keepExact_eq_ok.mp h).2

theorem Arith.exact_neg (h : A.exact.neg a = .ok r) : r.val = -a.val := (keepExact_eq_ok.mp h).2

theorem Arith.exact_abs (h : A.exact.abs a = .ok r) : r.val = |a.val| := (keepExact_eq_ok.mp h).2

theorem Arith.exact_decAdd (h : A.exact.decAdd a b = .ok r) : r.val = a.val + b.val :=
  (keepExact_eq_ok.mp h).2

theorem Arith.exact_decSub (h : A.exact.decSub a b = .ok r) : r.val = a.val - b.val :=
  (keepExact_eq_ok.mp h).2

theorem Arith.exact_mulI {n : Int} (h : A.exact.mulI a n = .ok r) : r.val = a.val * n := by
  obtain ⟨b, hb, h⟩ := bind_eq_ok.mp h
  rw [exact_mul h, Money.fromI128_val hb]

theorem Arith.exact_divI {n : Int} (h : A.exact.divI a n = .ok r) : r.val = a.val / n := by
  obtain ⟨b, hb, h⟩ := bind_eq_ok.mp h
  rw [exact_div h, Money.fromI128_val hb]

end Exact

theorem Arith.Le.mulI {A B : Arith} (h : A.Le B) (a : Money) (n : Int) :
    Refuses (A.mulI a n) (B.mulI a n) := Refuses.refl.bind fun b _ => h.mul a b

theorem Arith.Le.divI {A B : Arith} (h : A.Le B) (a : Money) (n : Int) :
    Refuses (A.divI a n) (B.divI a n) := Refuses.refl.bind fun b _ => h.div a b

theorem Arith.Le.addI {A B : Arith} (h : A.Le B) (a : Money) (n : Int) :
    Refuses (A.addI a n) (B.addI a n) := Refuses.refl.bind fun b _ => h.add a b

end TradeEngine
