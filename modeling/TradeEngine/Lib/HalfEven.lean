import Mathlib.Tactic
import Mathlib.Data.Int.Log

/-!
# Rounding half to even

To an integer, to a number of significant digits in base ten and to a number of places after the point, over
any ordered field with a floor.
-/

namespace TradeEngine.Lib

variable {K : Type} [Field K] [LinearOrder K] [IsStrictOrderedRing K] [FloorRing K]

/-- The nearest integer, the even one of two as near. -/
def roundHalfEven (x : K) : ℤ :=
  if 2 * Int.fract x < 1 then ⌊x⌋
  else if 1 < 2 * Int.fract x then ⌊x⌋ + 1
  else if ⌊x⌋ % 2 = 0 then ⌊x⌋ else ⌊x⌋ + 1

/-- `x` to `p` significant digits. -/
def roundDigits (p : ℕ) (x : K) : K :=
  roundHalfEven (x / 10 ^ (Int.log 10 |x| + 1 - p)) * 10 ^ (Int.log 10 |x| + 1 - p)

/-- `x` to `s` places after the point. -/
def roundPlaces (s : ℕ) (x : K) : K := roundHalfEven (x * 10 ^ s) / 10 ^ s

/-! ## The nearest integer -/

/-- Nearest, and even where two are as near. -/
def IsNearest (x : K) (n : ℤ) : Prop := 2 * |n - x| < 1 ∨ 2 * |n - x| = 1 ∧ n % 2 = 0

theorem isNearest_roundHalfEven (x : K) : IsNearest x (roundHalfEven x) := by
  have hfloor := Int.self_sub_floor x
  have hf0 := Int.fract_nonneg x
  have hf1 := Int.fract_lt_one x
  have hdown : |(⌊x⌋ : K) - x| = Int.fract x := by
    rw [abs_sub_comm, abs_of_nonneg (by linarith), hfloor]
  have hup : |((⌊x⌋ + 1 : ℤ) : K) - x| = 1 - Int.fract x := by
    push_cast
    rw [abs_of_nonneg (by linarith), ← hfloor]
    ring
  unfold roundHalfEven
  split_ifs with hlt hgt heven
  · left
    rwa [hdown]
  · left
    rw [hup]
    linarith
  · right
    rw [hdown]
    exact ⟨by linarith, heven⟩
  · right
    rw [hup]
    exact ⟨by linarith, by omega⟩

theorem IsNearest.unique {x : K} {m n : ℤ} (hm : IsNearest x m) (hn : IsNearest x n) : m = n := by
  have hm' : 2 * |(m : K) - x| ≤ 1 := hm.elim le_of_lt fun h => h.1.le
  have hn' : 2 * |(n : K) - x| ≤ 1 := hn.elim le_of_lt fun h => h.1.le
  have htri : |(m : K) - n| ≤ |(m : K) - x| + |(n : K) - x| := by
    rw [abs_sub_comm (n : K)]
    exact abs_sub_le _ _ _
  have hle : |(m : K) - n| ≤ 1 := by linarith
  have hint : |m - n| ≤ 1 := by exact_mod_cast hle
  by_contra hne
  have hone : |m - n| = 1 := by
    have := abs_pos.2 (sub_ne_zero.2 hne)
    omega
  have hcast : |(m : K) - n| = 1 := by exact_mod_cast hone
  -- a distance of one leaves both at the tie, and neighbours are not both even
  rcases hm with h | ⟨-, hem⟩
  · linarith
  · rcases hn with h | ⟨-, hen⟩
    · linarith
    · rw [abs_eq (by norm_num)] at hone
      omega

theorem roundHalfEven_eq {x : K} {n : ℤ} (h : IsNearest x n) : roundHalfEven x = n :=
  (isNearest_roundHalfEven x).unique h

@[simp] theorem roundHalfEven_intCast (n : ℤ) : roundHalfEven (n : K) = n :=
  roundHalfEven_eq (.inl (by simp))

@[simp] theorem roundHalfEven_zero : roundHalfEven (0 : K) = 0 := by
  exact_mod_cast roundHalfEven_intCast (K := K) 0

theorem roundHalfEven_neg (x : K) : roundHalfEven (-x) = -roundHalfEven x := by
  apply roundHalfEven_eq
  have habs : |((-roundHalfEven x : ℤ) : K) - -x| = |(roundHalfEven x : K) - x| := by
    push_cast
    rw [← abs_neg]
    congr 1
    ring
  unfold IsNearest
  rw [habs]
  rcases isNearest_roundHalfEven x with h | ⟨h, he⟩
  · exact .inl h
  · exact .inr ⟨h, by omega⟩

/-- Between two neighbouring halves every number rounds alike. -/
theorem roundHalfEven_congr {x y : K} {j : ℤ} (hx : (j : K) < 2 * x) (hx' : 2 * x < j + 1) (hy : (j : K) < 2 * y)
    (hy' : 2 * y < j + 1) : roundHalfEven x = roundHalfEven y := by
  have hround : ∀ {z : K}, (j : K) < 2 * z → 2 * z < j + 1 → roundHalfEven z = (j + 1) / 2 := by
    intro z hz hz'
    apply roundHalfEven_eq
    left
    rcases Int.even_or_odd' j with ⟨i, rfl | rfl⟩
    · have hdiv : (2 * i + 1) / 2 = i := by omega
      rw [hdiv]
      push_cast at hz hz'
      rw [abs_of_neg (by linarith)]
      linarith
    · have hdiv : (2 * i + 1 + 1) / 2 = i + 1 := by omega
      rw [hdiv]
      push_cast at hz hz' ⊢
      rw [abs_of_pos (by linarith)]
      linarith
  rw [hround hx hx', hround hy hy']

/-- A quotient by its whole part `q` and its remainder `r`. -/
theorem roundHalfEven_div {q r d : ℕ} (hr : r < d) : roundHalfEven (((q * d + r : ℕ) : K) / d) =
    if d < r * 2 ∨ r * 2 = d ∧ q % 2 = 1 then (q : ℤ) + 1 else q := by
  have hd : (0 : K) < d := by exact_mod_cast Nat.pos_of_ne_zero (by omega)
  have hr' : (r : K) < d := by exact_mod_cast hr
  have hr0 : (0 : K) ≤ r := Nat.cast_nonneg r
  have hx : ((q * d + r : ℕ) : K) / d = q + r / d := by
    push_cast
    field_simp
  have hfrac : (0 : K) ≤ r / d := by positivity
  have hfrac1 : (r : K) / d < 1 := by rwa [div_lt_one hd]
  apply roundHalfEven_eq
  unfold IsNearest
  rw [hx]
  split_ifs with hup
  · have habs : |((q + 1 : ℤ) : K) - (q + r / d)| = 1 - r / d := by
      rw [abs_of_nonneg]
      · push_cast
        ring
      · push_cast
        linarith
    rw [habs]
    rcases hup with h | ⟨h, hodd⟩
    · left
      have hlt : (d : K) < r * 2 := by exact_mod_cast h
      have hhalf : 1 / 2 < (r : K) / d := by rw [lt_div_iff₀ hd]; linarith
      linarith
    · right
      have heq : (r : K) * 2 = d := by exact_mod_cast h
      have hhalf : (r : K) / d = 1 / 2 := by rw [div_eq_iff hd.ne']; linarith
      exact ⟨by rw [hhalf]; norm_num, by omega⟩
  · have habs : |((q : ℤ) : K) - (q + r / d)| = r / d := by
      rw [abs_of_nonpos]
      · push_cast
        ring
      · push_cast
        linarith
    rw [habs]
    rcases lt_trichotomy (r * 2) d with h | h | h
    · left
      have hlt : (r : K) * 2 < d := by exact_mod_cast h
      have hhalf : (r : K) / d < 1 / 2 := by rw [div_lt_iff₀ hd]; linarith
      linarith
    · right
      have heq : (r : K) * 2 = d := by exact_mod_cast h
      have hhalf : (r : K) / d = 1 / 2 := by rw [div_eq_iff hd.ne']; linarith
      exact ⟨by rw [hhalf]; norm_num, by omega⟩
    · exact absurd (.inl h) hup

/-! ## Significant digits and places -/

theorem roundDigits_neg (p : ℕ) (x : K) : roundDigits p (-x) = -roundDigits p x := by
  unfold roundDigits
  rw [abs_neg, neg_div, roundHalfEven_neg]
  push_cast
  ring

theorem roundPlaces_neg (s : ℕ) (x : K) : roundPlaces s (-x) = -roundPlaces s x := by
  unfold roundPlaces
  rw [neg_mul, roundHalfEven_neg]
  push_cast
  ring

@[simp] theorem roundDigits_zero (p : ℕ) : roundDigits p (0 : K) = 0 := by simp [roundDigits]

@[simp] theorem roundPlaces_zero (s : ℕ) : roundPlaces s (0 : K) = 0 := by simp [roundPlaces]

/-- A whole number of units of the last place is kept. -/
theorem roundPlaces_zpow {s : ℕ} {e : ℤ} (he : -s ≤ e) (n : ℤ) : roundPlaces s ((n : K) * 10 ^ e) = n * 10 ^ e := by
  have hnat : ((e + s).toNat : ℤ) = e + s := by omega
  have hwhole : (n : K) * 10 ^ e * 10 ^ s = ((n * 10 ^ (e + s).toNat : ℤ) : K) := by
    push_cast
    rw [← zpow_natCast (10 : K) (e + s).toNat, hnat, zpow_add₀ (by norm_num), zpow_natCast]
    ring
  unfold roundPlaces
  rw [hwhole, roundHalfEven_intCast, ← hwhole]
  field_simp

theorem log_eq {x : K} {n : ℤ} (hlow : 10 ^ n ≤ x) (hhigh : x < 10 ^ (n + 1)) : Int.log 10 x = n := by
  have hpos : 0 < x := lt_of_lt_of_le (by positivity) hlow
  apply le_antisymm
  · apply Int.lt_add_one_iff.1
    rw [← Int.lt_zpow_iff_log_lt (by norm_num) hpos]
    exact_mod_cast hhigh
  · rw [← Int.zpow_le_iff_le_log (by norm_num) hpos]
    exact_mod_cast hlow

/-- Rounding at a known order of magnitude. -/
theorem roundDigits_eq {p : ℕ} {x : K} {g : ℤ} (hlow : 10 ^ (g + p - 1) ≤ x) (hhigh : x < 10 ^ (g + p)) :
    roundDigits p x = roundHalfEven (x / 10 ^ g) * 10 ^ g := by
  have hpos : 0 < x := lt_of_lt_of_le (by positivity) hlow
  have hlog : Int.log 10 |x| = g + p - 1 := by
    rw [abs_of_pos hpos]
    apply log_eq hlow
    rwa [sub_add_cancel]
  have hexp : Int.log 10 |x| + 1 - p = g := by
    rw [hlog]
    ring
  rw [roundDigits, hexp]

/-- The same with a power of ten split off. -/
theorem roundDigits_mul_zpow {p n : ℕ} {x : K} (hlow : 10 ^ n ≤ x) (hhigh : x < 10 ^ (n + 1)) (e : ℤ) :
    roundDigits p (x * 10 ^ e) = roundHalfEven (x / 10 ^ ((n : ℤ) + 1 - p)) * 10 ^ ((n : ℤ) + 1 - p + e) := by
  have hten : (0 : K) < 10 ^ e := by positivity
  have hten0 : (10 : K) ≠ 0 := by norm_num
  have hlow' : (10 : K) ^ ((n : ℤ) + 1 - p + e + p - 1) ≤ x * 10 ^ e := by
    have hexp : (n : ℤ) + 1 - p + e + p - 1 = n + e := by ring
    rw [hexp, zpow_add₀ hten0, zpow_natCast]
    exact mul_le_mul_of_nonneg_right hlow hten.le
  have hhigh' : x * 10 ^ e < (10 : K) ^ ((n : ℤ) + 1 - p + e + p) := by
    have hexp : (n : ℤ) + 1 - p + e + p = (n + 1 : ℕ) + e := by push_cast; ring
    rw [hexp, zpow_add₀ hten0, zpow_natCast]
    exact mul_lt_mul_of_pos_right hhigh hten
  rw [roundDigits_eq hlow' hhigh', zpow_add₀ hten0, mul_div_mul_right _ _ hten.ne']

/-- A coefficient of no more digits is kept. -/
theorem roundDigits_natCast {p c : ℕ} (hp : c < 10 ^ p) (e : ℤ) :
    roundDigits p ((c : K) * 10 ^ e) = c * 10 ^ e := by
  have hten0 : (10 : K) ≠ 0 := by norm_num
  rcases Nat.eq_zero_or_pos c with rfl | hc
  · simp
  · have hlow : (10 : K) ^ Nat.log 10 c ≤ c := by exact_mod_cast Nat.pow_log_le_self 10 hc.ne'
    have hhigh : (c : K) < 10 ^ (Nat.log 10 c + 1) := by exact_mod_cast Nat.lt_pow_succ_log_self (by norm_num) c
    have hlog : Nat.log 10 c < p := Nat.log_lt_of_lt_pow hc.ne' hp
    obtain ⟨k, hk⟩ : ∃ k : ℕ, (Nat.log 10 c : ℤ) + 1 - p = -k := ⟨p - (Nat.log 10 c + 1), by omega⟩
    have hwhole : (c : K) / 10 ^ (-(k : ℤ)) = ((c * 10 ^ k : ℤ) : K) := by
      rw [zpow_neg, zpow_natCast]
      push_cast
      field_simp
    rw [roundDigits_mul_zpow hlow hhigh, hk, hwhole, roundHalfEven_intCast, zpow_add₀ hten0, zpow_neg, zpow_natCast]
    push_cast
    field_simp

/-! ## A sticky digit -/

/-- A whole part that lost digits, moved off the multiples of five. -/
def sticky (q : ℕ) : ℕ := if q % 5 = 0 then q + 1 else q

/-- It lies strictly between the same halves as every number it stands for. -/
theorem sticky_between {q h : ℕ} (hh : 0 < h) (h5 : 5 ∣ h) :
    q / h * h < sticky q ∧ sticky q < (q / h + 1) * h ∧ q / h * h ≤ q ∧ q + 1 ≤ (q / h + 1) * h := by
  have hmod := Nat.div_add_mod' q h
  have hlt := Nat.mod_lt q hh
  have hsucc : (q / h + 1) * h = q / h * h + h := by ring
  have hdvd : 5 ∣ q / h * h := Dvd.dvd.mul_left h5 _
  unfold sticky
  split <;> omega

theorem roundHalfEven_sticky {q k : ℕ} {y : K} (hlow : (q : K) < y) (hhigh : y < q + 1) :
    roundHalfEven (y / 10 ^ (k + 1)) = roundHalfEven ((sticky q : K) / 10 ^ (k + 1)) := by
  obtain ⟨h1, h2, h3, h4⟩ := sticky_between (q := q) (h := 5 * 10 ^ k) (by positivity) (Dvd.intro _ rfl)
  generalize q / (5 * 10 ^ k) = j at h1 h2 h3 h4
  have hpos : (0 : K) < 5 * 10 ^ k := by positivity
  have htwice : ∀ z : K, 2 * (z / 10 ^ (k + 1)) = z / (5 * 10 ^ k) := by
    intro z
    rw [pow_succ]
    field_simp
    ring
  have c1 : (j : K) * (5 * 10 ^ k) < sticky q := by exact_mod_cast h1
  have c2 : (sticky q : K) < (j + 1) * (5 * 10 ^ k) := by exact_mod_cast h2
  have c3 : (j : K) * (5 * 10 ^ k) ≤ q := by exact_mod_cast h3
  have c4 : (q : K) + 1 ≤ (j + 1) * (5 * 10 ^ k) := by exact_mod_cast h4
  apply roundHalfEven_congr (j := (j : ℤ))
  all_goals rw [htwice]
  · rw [lt_div_iff₀ hpos]
    push_cast
    linarith
  · rw [div_lt_iff₀ hpos]
    push_cast
    linarith
  · rw [lt_div_iff₀ hpos]
    push_cast
    linarith
  · rw [div_lt_iff₀ hpos]
    push_cast
    linarith

/-- A number whose whole part has over `p` digits rounds to `p` digits as that part with the sticky digit does. -/
theorem roundDigits_sticky {p q : ℕ} {y : K} (hq : 10 ^ p ≤ q) (hlow : (q : K) < y) (hhigh : y < q + 1) (e : ℤ) :
    roundDigits p (y * 10 ^ e) = roundDigits p ((sticky q : K) * 10 ^ e) := by
  have hq0 : q ≠ 0 := by
    have : 0 < 10 ^ p := by positivity
    omega
  obtain ⟨k, hk⟩ : ∃ k, Nat.log 10 q = p + k := Nat.exists_eq_add_of_le (Nat.le_log_of_pow_le (by norm_num) hq)
  have hlog : 10 ^ (p + k) ≤ q := hk ▸ Nat.pow_log_le_self 10 hq0
  have hlog' : q < 10 ^ (p + k + 1) := hk ▸ Nat.lt_pow_succ_log_self (by norm_num) q
  -- the digit added makes no new power of ten
  have hsticky : q ≤ sticky q ∧ sticky q < 10 ^ (p + k + 1) := by
    have h5 : 10 ^ (p + k + 1) % 5 = 0 := by rw [pow_succ]; omega
    unfold sticky
    split <;> omega
  have hexp : ((p + k : ℕ) : ℤ) + 1 - p = (k + 1 : ℕ) := by push_cast; ring
  have b1 : (10 : K) ^ (p + k) ≤ q := by exact_mod_cast hlog
  have b2 : (q : K) + 1 ≤ 10 ^ (p + k + 1) := by exact_mod_cast hlog'
  have b3 : (10 : K) ^ (p + k) ≤ sticky q := by exact_mod_cast hlog.trans hsticky.1
  have b4 : (sticky q : K) < 10 ^ (p + k + 1) := by exact_mod_cast hsticky.2
  rw [roundDigits_mul_zpow (n := p + k) (by linarith) (by linarith), roundDigits_mul_zpow (n := p + k) b3 b4, hexp,
    zpow_natCast, roundHalfEven_sticky hlow hhigh]

end TradeEngine.Lib
