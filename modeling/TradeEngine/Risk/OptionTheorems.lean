import TradeEngine.Ledger.Theorems
import TradeEngine.Risk.Options

/-!
# The measured maximum loss and the real one

A structure is worth, at expiry, what its legs pay at the prices of their underlyings. The measured
worst case bounds the loss for every price unless the legs and the order's side disagree.
-/

namespace TradeEngine.Risk

open Lib
open Oms (legsOf isStructure contractMultiplier)

/-! ## Payoffs -/

/-- What a contract pays at expiry. -/
def payoff (c : OptionContract) (price : ℚ) : ℚ :=
  match c.right with
  | .call => max (price - c.strike.val) 0
  | .put => max (c.strike.val - price) 0

/-- The prices of the underlyings at expiry. -/
structure Expiry where
  price : String → ℚ
  nonneg : ∀ u, 0 ≤ price u

section

variable (underlying : String → String)

/-- What a leg pays, signed by its side and times its ratio and its contract's multiplier;
`underlying` is that of an option root. -/
def legPayoff (e : Expiry) (leg : ComboLeg) : ℚ :=
  match leg.contract with
  | .option c => leg.side.unit * leg.ratio * (c.multiplier * payoff c (e.price (underlying c.underlying)))
  | _ => 0

/-- The multiplier of a structure's net price: that of its first leg. -/
def netMultiplier : List ComboLeg → Int
  | ⟨.option c, _, _, _⟩ :: _ => c.multiplier
  | _ => 1

/-- The loss of a structure at expiry: the net price paid or received and the payoffs of its legs,
times the quantity. -/
def loss (intent : Intent) (price : Money) (e : Expiry) : ℚ :=
  -(-intent.side.unit * price.val * netMultiplier (legsOf intent.instrument intent.side) +
    ((legsOf intent.instrument intent.side).map (legPayoff underlying e)).sum) * intent.quantity.val

/-- The short leg costs at most `room` over what the long one pays: at the long strike, and at zero for
puts or far up for calls. -/
def Within (room : ℚ) (long short : OptionContract) : Prop :=
  if underlying long.underlying = underlying short.underlying then
    match long.right with
    | .call => short.multiplier ≤ long.multiplier ∧
        short.multiplier * (long.strike.val - short.strike.val) ≤ room
    | .put => short.multiplier * (short.strike.val - long.strike.val) ≤ room ∧
        short.multiplier * short.strike.val - long.multiplier * long.strike.val ≤ room
  else long.right = .put ∧ short.multiplier * short.strike.val ≤ room

/-- What the rule allows two legs to lose beside the net price: the width of a sold pair, at the first
leg's multiplier. -/
def room (side : Side) (a b : OptionContract) : ℚ :=
  if side = .sell then a.multiplier * |a.strike.val - b.strike.val| else 0

/-- Structures whose worst case the rule measures. -/
def Measured (side : Side) : List ComboLeg → Prop
  | [leg] => leg.side = .buy ∨ (side = .sell ∧ leg.ratio = 1)
  | [⟨.option a, _, .buy, _⟩, ⟨.option b, _, .sell, _⟩] => Within underlying (room side a b) a b
  | [⟨.option a, _, .sell, _⟩, ⟨.option b, _, .buy, _⟩] => Within underlying (room side a b) b a
  | _ => True

end

theorem payoff_nonneg (c : OptionContract) (price : ℚ) : 0 ≤ payoff c price := by
  unfold payoff
  split
  · exact le_max_right _ _
  · exact le_max_right _ _

theorem strike_pos (c : OptionContract) : 0 < c.strike.val := by
  have hstrike := c.strike_ok
  unfold validateStrike at hstrike
  by_cases hpos : (c.strike.isNegative || c.strike.isZero) = true
  · rw [if_pos hpos] at hstrike
    cases hstrike
  · simp only [Money.isNegative, Money.isZero, Bool.or_eq_true, decide_eq_true_eq, beq_iff_eq, not_or,
      not_lt] at hpos
    exact Money.val_pos_iff.mpr (lt_of_le_of_ne hpos.1 (Ne.symm hpos.2))

theorem payoff_call {c : OptionContract} (hc : c.right = .call) (price : ℚ) :
    payoff c price = max (price - c.strike.val) 0 := by rw [payoff, hc]

theorem payoff_put {c : OptionContract} (hc : c.right = .put) (price : ℚ) :
    payoff c price = max (c.strike.val - price) 0 := by rw [payoff, hc]

/-- A put pays at most its strike. -/
theorem payoff_put_le {c : OptionContract} (hc : c.right = .put) {price : ℚ} (hprice : 0 ≤ price) :
    payoff c price ≤ c.strike.val := by
  rw [payoff_put hc]
  exact max_le (by linarith) (strike_pos c).le

/-- At zero a put pays its strike. -/
theorem payoff_put_zero {c : OptionContract} (hc : c.right = .put) : payoff c 0 = c.strike.val := by
  rw [payoff_put hc, sub_zero, max_eq_left (strike_pos c).le]

/-- At its strike a contract pays nothing. -/
theorem payoff_strike (c : OptionContract) : payoff c c.strike.val = 0 := by
  unfold payoff
  split <;> rw [sub_self, max_self]

/-- The price of one underlying at expiry, the others at another. -/
def Expiry.at (u : String) (x y : ℚ) (hx : 0 ≤ x) (hy : 0 ≤ y) : Expiry where
  price v := if v = u then x else y
  nonneg v := by split <;> assumption

/-! ## Two legs -/

section Spread

variable {underlying : String → String} {long short : OptionContract} {w : ℚ}

/-- What the short leg costs over what the long one pays. -/
def gap (underlying : String → String) (long short : OptionContract) (e : Expiry) : ℚ :=
  short.multiplier * payoff short (e.price (underlying short.underlying)) -
    long.multiplier * payoff long (e.price (underlying long.underlying))

theorem multiplier_pos (c : OptionContract) : (0 : ℚ) < c.multiplier := by exact_mod_cast c.multiplier_pos

/-- The gap is what a bought and a sold leg owe together. -/
theorem units_eq_gap (long short : OptionContract) (e : Expiry) :
    Side.buy.unit * (long.multiplier * payoff long (e.price (underlying long.underlying))) +
      Side.sell.unit * (short.multiplier * payoff short (e.price (underlying short.underlying))) =
      -gap underlying long short e := by
  rw [gap, Side.unit, Side.unit]
  ring

/-- Calls on one underlying: the gap is widest at the long strike, or grows without end. -/
theorem call_gap_le_iff {long short : ℚ} {l s : ℚ} (hlong : 0 ≤ long) (hl : 0 < l) (hs : 0 < s) (hw : 0 ≤ w) :
    (∀ x, 0 ≤ x → s * max (x - short) 0 - l * max (x - long) 0 ≤ w) ↔ s ≤ l ∧ s * (long - short) ≤ w := by
  constructor
  · intro h
    refine ⟨?_, ?_⟩
    · -- far enough up, whatever the difference of the multipliers is worth
      by_contra hlt
      rw [not_le] at hlt
      have hslope : 0 < s - l := by linarith
      have hup := h (long + (w + s * |short| + 1) / (s - l)) (by positivity)
      have hshort := le_max_left (long + (w + s * |short| + 1) / (s - l) - short) 0
      have hgain : (s - l) * ((w + s * |short| + 1) / (s - l)) = w + s * |short| + 1 :=
        mul_div_cancel₀ _ hslope.ne'
      rw [add_sub_cancel_left, max_eq_left (a := (w + s * |short| + 1) / (s - l)) (by positivity)] at hup
      have habs := mul_le_mul_of_nonneg_left (le_abs_self short) hs.le
      have hpaid := mul_le_mul_of_nonneg_left hshort hs.le
      have hlongs := mul_nonneg hs.le hlong
      linarith
    · have hat := h long hlong
      rw [sub_self, max_self, mul_zero, sub_zero] at hat
      exact (mul_le_mul_of_nonneg_left (le_max_left _ _) hs.le).trans hat
  · rintro ⟨hsl, hat⟩ x -
    have hpays : s * (x - long) ≤ l * max (x - long) 0 :=
      (mul_le_mul_of_nonneg_left (le_max_left _ _) hs.le).trans
        (mul_le_mul_of_nonneg_right hsl (le_max_right _ _))
    have hnone := mul_nonneg hl.le (le_max_right (x - long) 0)
    rcases max_cases (x - short) 0 with ⟨hmax, -⟩ | ⟨hmax, -⟩
    · rw [hmax]
      linarith
    · rw [hmax]
      linarith

/-- Puts on one underlying: the gap is widest at the long strike or at zero. -/
theorem put_gap_le_iff {long short : ℚ} {l s : ℚ} (hlong : 0 ≤ long) (hshort : 0 ≤ short) (hl : 0 < l)
    (hs : 0 < s) (hw : 0 ≤ w) :
    (∀ x, 0 ≤ x → s * max (short - x) 0 - l * max (long - x) 0 ≤ w) ↔
      s * (short - long) ≤ w ∧ s * short - l * long ≤ w := by
  constructor
  · intro h
    have hat := h long hlong
    have hzero := h 0 le_rfl
    rw [sub_self, max_self, mul_zero, sub_zero] at hat
    rw [sub_zero, sub_zero, max_eq_left hshort, max_eq_left hlong] at hzero
    exact ⟨(mul_le_mul_of_nonneg_left (le_max_left _ _) hs.le).trans hat, hzero⟩
  · rintro ⟨hat, hzero⟩ x hx
    have hnone := mul_nonneg hl.le (le_max_right (long - x) 0)
    have hpays := mul_le_mul_of_nonneg_left (le_max_left (long - x) 0) hl.le
    rcases max_cases (short - x) 0 with ⟨hmax, -⟩ | ⟨hmax, -⟩
    · rw [hmax]
      -- below the long strike the gap lies between its values at zero and there
      rcases le_total s l with hsl | hls
      · have hlower : s * (long - x) ≤ l * max (long - x) 0 :=
          (mul_le_mul_of_nonneg_left (le_max_left _ _) hs.le).trans
            (mul_le_mul_of_nonneg_right hsl (le_max_right _ _))
        linarith
      · have hdown := mul_le_mul_of_nonneg_right hls hx
        linarith
    · rw [hmax]
      linarith

/-- The prices of one underlying are all the prices there are. -/
theorem forall_price_iff (hsame : underlying long.underlying = underlying short.underlying) :
    (∀ e, gap underlying long short e ≤ w) ↔
      ∀ x, 0 ≤ x → short.multiplier * payoff short x - long.multiplier * payoff long x ≤ w := by
  constructor
  · intro h x hx
    have htell := h (.at (underlying short.underlying) x 0 hx le_rfl)
    rw [gap, hsame, Expiry.at] at htell
    dsimp only at htell
    rwa [if_pos rfl] at htell
  · intro h e
    rw [gap, hsame]
    exact h _ (e.nonneg _)

/-- On two underlyings the gap of puts reaches all of the short strike; that of calls has no bound. -/
theorem gap_le_iff_of_ne (hne : underlying long.underlying ≠ underlying short.underlying)
    (hright : long.right = short.right) (hw : 0 ≤ w) :
    (∀ e, gap underlying long short e ≤ w) ↔
      short.right = .put ∧ short.multiplier * short.strike.val ≤ w := by
  have hs := multiplier_pos short
  have hl := multiplier_pos long
  cases hr : short.right with
  | call =>
      -- the short underlying far above its strike, the long one at zero
      have hfar : 0 ≤ short.strike.val + (w / short.multiplier + 1) := by
        have hpos := strike_pos short
        positivity
      constructor
      · intro h
        have htell :=
          h (.at (underlying short.underlying) (short.strike.val + (w / short.multiplier + 1)) 0 hfar le_rfl)
        rw [gap, Expiry.at] at htell
        dsimp only at htell
        rw [if_pos rfl, if_neg hne, payoff_call hr, payoff_call (hright.trans hr),
          max_eq_right (a := 0 - long.strike.val) (by linarith [strike_pos long]), mul_zero, sub_zero,
          add_sub_cancel_left] at htell
        have hpaid := (mul_le_mul_of_nonneg_left (le_max_left (w / short.multiplier + 1) 0) hs.le).trans htell
        rw [mul_add, mul_div_cancel₀ _ hs.ne', mul_one] at hpaid
        linarith
      · rintro ⟨hput, -⟩
        cases hput
  | put =>
      constructor
      · intro h
        have htell := h (.at (underlying short.underlying) 0 long.strike.val le_rfl (strike_pos long).le)
        rw [gap, Expiry.at] at htell
        dsimp only at htell
        rw [if_pos rfl, if_neg hne, payoff_put_zero hr, payoff_strike, mul_zero, sub_zero] at htell
        exact ⟨rfl, htell⟩
      · rintro ⟨-, hle⟩ e
        have hcost := mul_le_mul_of_nonneg_left (payoff_put_le hr (e.nonneg (underlying short.underlying))) hs.le
        have hpays := mul_nonneg hl.le (payoff_nonneg long (e.price (underlying long.underlying)))
        unfold gap
        linarith

/-- The gap stays within a room exactly when it does so at the prices that decide it. -/
theorem gap_le_iff (hright : long.right = short.right) (hw : 0 ≤ w) :
    (∀ e, gap underlying long short e ≤ w) ↔ Within underlying w long short := by
  have hs := multiplier_pos short
  have hl := multiplier_pos long
  unfold Within
  split_ifs with hsame
  · rw [forall_price_iff hsame]
    cases hr : short.right with
    | call =>
        simp only [payoff_call hr, payoff_call (hright.trans hr), hright, hr]
        rw [call_gap_le_iff (strike_pos long).le hl hs hw]
        norm_cast
    | put =>
        simp only [payoff_put hr, payoff_put (hright.trans hr), hright, hr]
        exact put_gap_le_iff (strike_pos long).le (strike_pos short).le hl hs hw
  · rw [gap_le_iff_of_ne hsame hright hw, hright]

end Spread

/-! ## What the rule measures -/

section Figures

variable {A : Arith} {intent : Intent} {price figure : Money}

theorem scaled_exact {per units r : Money} {m : Int} (h : scaled A.exact per m units = .ok r) :
    r.val = per.val * m * units.val := by
  simp only [scaled, bind_eq_ok] at h
  obtain ⟨x, hx, h⟩ := h
  rw [Ops.exact_mul h, Ops.exact_mulI hx]

/-- The legs of a structure are options. -/
theorem option_of_structure {i : Instrument} {side : Side} (h : isStructure i = true) {leg : ComboLeg}
    (hleg : leg ∈ legsOf i side) : ∃ c, leg.contract = .option c := by
  have hoption : Oms.isOption leg.contract = true := by
    cases i with
    | single c =>
        rw [List.mem_singleton.mp hleg]
        exact h
    | combo legs => exact List.all_eq_true.mp h leg hleg
  cases hc : leg.contract with
  | option c => exact ⟨c, rfl⟩
  | equity _ => rw [hc] at hoption; cases hoption
  | future _ => rw [hc] at hoption; cases hoption

theorem sameShape_true {a b : ComboLeg} {ca cb : OptionContract} (ha : a.contract = .option ca)
    (hb : b.contract = .option cb) (h : sameShape a b = .ok true) :
    ca.right = cb.right ∧ a.ratio = 1 ∧ b.ratio = 1 := by
  simp only [sameShape, ha, hb, rightOf, expiryOf, bind_eq_ok, Except.ok.injEq] at h
  obtain ⟨_, rfl, _, rfl, h⟩ := h
  split_ifs at h with hright
  · simp only [bind_eq_ok, Except.ok.injEq] at h
    obtain ⟨_, rfl, _, rfl, h⟩ := h
    split_ifs at h
    · simp only [pure_eq_ok, decide_eq_true_eq] at h
      exact ⟨hright, h.1.trans h.2, h.2⟩
    · cases h
  · cases h

/-- The figure of one leg, or of two opposite legs on one right, expiry and ratio. -/
inductive Figure (intent : Intent) (price figure : Money) : List ComboLeg → Prop
  | bought {leg c} (contract : leg.contract = .option c) (side : leg.side = .buy)
      (value : figure.val = price.val * c.multiplier * intent.quantity.val) : Figure intent price figure [leg]
  | put {leg c} (contract : leg.contract = .option c) (side : leg.side = .sell) (right : c.right = .put)
      (value : figure.val = (c.strike.val - price.val) * c.multiplier * intent.quantity.val) :
      Figure intent price figure [leg]
  | spread {a b ca cb} (first : a.contract = .option ca) (second : b.contract = .option cb)
      (ratios : a.ratio = 1 ∧ b.ratio = 1) (sides : a.side ≠ b.side) (right : ca.right = cb.right)
      (value : figure.val = (if intent.side = .sell then |ca.strike.val - cb.strike.val| - price.val
        else price.val) * ca.multiplier * intent.quantity.val) : Figure intent price figure [a, b]

theorem maxLoss_figure (h : maxLoss A.exact intent price = .ok (some figure))
    (hs : isStructure intent.instrument = true) :
    Figure intent price figure (legsOf intent.instrument intent.side) := by
  have hoption : ∀ leg ∈ legsOf intent.instrument intent.side, ∃ c, leg.contract = .option c :=
    fun _ hleg => option_of_structure hs hleg
  unfold maxLoss at h
  generalize hlegs : legsOf intent.instrument intent.side = legs at h hoption ⊢
  simp only [bind_eq_ok] at h
  obtain ⟨m, hm, h⟩ := h
  split at h
  · rename_i hequity
    rw [hequity] at hs
    cases hs
  · rename_i leg _ 
    obtain ⟨c, hc⟩ := hoption leg List.mem_cons_self
    simp only [List.head?_cons, hc, contractMultiplier, Except.ok.injEq] at hm
    subst hm
    split_ifs at h with hside
    · obtain ⟨x, hx, hsome⟩ := map_eq_ok.mp h
      cases hsome
      exact .bought hc hside (scaled_exact hx)
    · simp only [hc, rightOf, strikeOf, bind_eq_ok, Except.ok.injEq] at h
      obtain ⟨_, rfl, h⟩ := h
      split_ifs at h with hright
      · simp only [bind_eq_ok, Except.ok.injEq] at h
        obtain ⟨_, rfl, per, hper, h⟩ := h
        obtain ⟨x, hx, hsome⟩ := map_eq_ok.mp h
        cases hsome
        have hsell : leg.side = .sell := by cases hl : leg.side <;> simp_all
        exact .put hc hsell hright (by rw [scaled_exact hx, Ops.exact_sub hper])
      · cases h
  · rename_i a b _
    obtain ⟨ca, ha⟩ := hoption a List.mem_cons_self
    obtain ⟨cb, hb⟩ := hoption b (List.mem_cons_of_mem _ List.mem_cons_self)
    simp only [List.head?_cons, ha, contractMultiplier, Except.ok.injEq] at hm
    subst hm
    simp only [bind_eq_ok] at h
    obtain ⟨same, hsame, h⟩ := h
    by_cases hshape : (same && decide (a.side ≠ b.side)) = true
    · rw [if_pos hshape] at h
      rw [Bool.and_eq_true, decide_eq_true_eq] at hshape
      obtain ⟨rfl, hsides⟩ := hshape
      obtain ⟨hright, hratios⟩ := sameShape_true ha hb hsame
      simp only [ha, hb, strikeOf, bind_eq_ok, Except.ok.injEq] at h
      obtain ⟨_, rfl, _, rfl, diff, hdiff, width, hwidth, h⟩ := h
      have hval : width.val = |ca.strike.val - cb.strike.val| := by
        rw [Ops.exact_abs hwidth, Ops.exact_sub hdiff]
      refine .spread ha hb hratios hsides hright ?_
      split_ifs at h with hside
      · obtain ⟨per, hper, h⟩ := bind_eq_ok.mp h
        obtain ⟨x, hx, hsome⟩ := map_eq_ok.mp h
        cases hsome
        rw [if_pos hside, scaled_exact hx, Ops.exact_sub hper, hval]
      · obtain ⟨x, hx, hsome⟩ := map_eq_ok.mp h
        cases hsome
        rw [if_neg hside, scaled_exact hx]
    · rw [if_neg hshape] at h
      cases h
  · cases h

end Figures

/-! ## Whether it bounds the loss -/

section Bounds

variable {underlying : String → String} {intent : Intent} {price : Money}

/-- Per unit: the figure bounds the loss exactly when it does so there. -/
theorem loss_le_iff {x : ℚ} (hq : 0 < intent.quantity.val) :
    (∀ e, loss underlying intent price e ≤ x * intent.quantity.val) ↔
      ∀ e, intent.side.unit * price.val * netMultiplier (legsOf intent.instrument intent.side) -
        ((legsOf intent.instrument intent.side).map (legPayoff underlying e)).sum ≤ x := by
  refine forall_congr' fun e => ?_
  rw [loss, mul_le_mul_iff_left₀ hq, neg_add, neg_mul, neg_mul, neg_neg, ← sub_eq_add_neg]

theorem netMultiplier_single {leg : ComboLeg} {c : OptionContract} (hc : leg.contract = .option c) :
    netMultiplier [leg] = c.multiplier := by
  obtain ⟨contract, ratio, side, hratio⟩ := leg
  dsimp only at hc
  subst hc
  rfl

/-- A bought leg owes nothing, so the order loses at most what it pays. -/
theorem bought_bounded {leg : ComboLeg} {c : OptionContract} (hc : leg.contract = .option c)
    (hside : leg.side = .buy) (hprice : 0 < price.val) (e : Expiry) :
    intent.side.unit * price.val * c.multiplier - (([leg] : List ComboLeg).map (legPayoff underlying e)).sum ≤
      price.val * c.multiplier := by
  obtain ⟨contract, ratio, side, hratio⟩ := leg
  dsimp only at hc hside
  subst hc hside
  have hm := multiplier_pos c
  have hpay : 0 ≤ (ratio : ℚ) * (c.multiplier * payoff c (e.price (underlying c.underlying))) :=
    mul_nonneg (by exact_mod_cast hratio.le)
      (mul_nonneg hm.le (payoff_nonneg c (e.price (underlying c.underlying))))
  have hnet : intent.side.unit * price.val * c.multiplier ≤ price.val * c.multiplier := by
    refine mul_le_mul_of_nonneg_right ?_ hm.le
    cases intent.side <;> simp only [Side.unit] <;> linarith
  have hpaid : (([⟨.option c, ratio, .buy, hratio⟩] : List ComboLeg).map (legPayoff underlying e)).sum =
      ratio * (c.multiplier * payoff c (e.price (underlying c.underlying))) := by
    simp [legPayoff, Side.unit]
  rw [hpaid]
  linarith

/-- A sold put: its whole strike is lost at zero. -/
theorem put_bounded_iff {leg : ComboLeg} {c : OptionContract} (hc : leg.contract = .option c)
    (hside : leg.side = .sell) (hright : c.right = .put) (hprice : 0 < price.val) :
    (∀ e, intent.side.unit * price.val * c.multiplier -
        (([leg] : List ComboLeg).map (legPayoff underlying e)).sum ≤ (c.strike.val - price.val) * c.multiplier) ↔
      leg.side = .buy ∨ (intent.side = .sell ∧ leg.ratio = 1) := by
  have hm := multiplier_pos c
  have hpay : ∀ e, (intent.side.unit * price.val * c.multiplier -
      (([leg] : List ComboLeg).map (legPayoff underlying e)).sum ≤ (c.strike.val - price.val) * c.multiplier) ↔
      intent.side.unit * price.val + leg.ratio * payoff c (e.price (underlying c.underlying)) ≤
        c.strike.val - price.val := by
    intro e
    have hscale : intent.side.unit * price.val * c.multiplier -
        (([leg] : List ComboLeg).map (legPayoff underlying e)).sum =
        (intent.side.unit * price.val + leg.ratio * payoff c (e.price (underlying c.underlying))) *
          c.multiplier := by
      have hpaid : (([leg] : List ComboLeg).map (legPayoff underlying e)).sum =
          -(leg.ratio * (c.multiplier * payoff c (e.price (underlying c.underlying)))) := by
        simp [legPayoff, hc, hside, Side.unit]
      rw [hpaid]
      ring
    rw [hscale, mul_le_mul_iff_left₀ hm]
  rw [forall_congr' hpay, hside]
  simp only [reduceCtorEq, false_or]
  have hK := strike_pos c
  have hr : (1 : ℚ) ≤ leg.ratio := by exact_mod_cast leg.ratio_pos
  constructor
  · intro h
    have hzero := h (.at "" 0 0 le_rfl le_rfl)
    simp only [Expiry.at, ite_self, payoff_put_zero hright] at hzero
    cases hs : intent.side with
    | buy =>
        rw [hs, Side.unit] at hzero
        linarith [le_mul_of_one_le_left hK.le hr]
    | sell =>
        rw [hs, Side.unit] at hzero
        refine ⟨rfl, ?_⟩
        have hone : (leg.ratio : ℚ) ≤ 1 := le_of_mul_le_mul_right (by linarith) hK
        exact_mod_cast le_antisymm hone hr
  · rintro ⟨hs, hratio⟩ e
    rw [hs, hratio, Side.unit]
    have hle := payoff_put_le hright (e.nonneg (underlying c.underlying))
    push_cast
    linarith

theorem room_nonneg (side : Side) (a b : OptionContract) : 0 ≤ room side a b := by
  unfold room
  split
  · exact mul_nonneg (multiplier_pos a).le (abs_nonneg _)
  · exact le_rfl

/-- Two opposite legs: what counts is the gap between the short one and the long one. -/
theorem spread_bounded_iff (price : Money) {a b long short : OptionContract} (hright : long.right = short.right) :
    (∀ e, intent.side.unit * price.val * a.multiplier + gap underlying long short e ≤
      (if intent.side = .sell then |a.strike.val - b.strike.val| - price.val else price.val) * a.multiplier) ↔
      Within underlying (room intent.side a b) long short := by
  rw [← gap_le_iff hright (room_nonneg _ _ _)]
  refine forall_congr' fun e => ?_
  unfold room
  cases intent.side with
  | sell =>
      rw [if_pos rfl, if_pos rfl, Side.unit]
      constructor <;> intro h <;> linarith
  | buy =>
      rw [if_neg (by decide), if_neg (by decide), Side.unit, one_mul]
      constructor <;> intro h <;> linarith

end Bounds

/-- An entry in options as the domain admits it: a contract or an options combo, in a positive whole
quantity. The legs of a combo may have different multipliers. -/
structure Intent.Admitted (intent : Intent) : Prop where
  structured : isStructure intent.instrument = true
  quantity : 0 < intent.quantity.val ∧ intent.quantity.isIntegral = true

theorem maxLoss_refuses {A B : Arith} (le : A.Le B) (intent : Intent) (price : Money) :
    Refuses (maxLoss A intent price) (maxLoss B intent price) := by
  have hscaled : ∀ per m, Refuses (some <$> scaled A per m intent.quantity)
      (some <$> scaled B per m intent.quantity) :=
    fun per m => .map ((Ops.mulI_refuses le _ _).bind fun _ _ => Ops.mul_refuses le _ _)
  unfold maxLoss
  refine .bind .refl fun m _ => ?_
  split
  · exact .map (Ops.mul_refuses le _ _)
  · refine .ite (fun _ => hscaled _ _) fun _ => .bind .refl fun _ _ => .ite (fun _ => ?_) fun _ => .refl
    exact .bind .refl fun _ _ => (Ops.sub_refuses le _ _).bind fun _ _ => hscaled _ _
  · refine .bind .refl fun _ _ => .ite (fun _ => ?_) fun _ => .refl
    refine .bind .refl fun _ _ => .bind .refl fun _ _ => (Ops.sub_refuses le _ _).bind fun _ _ => ?_
    refine (Ops.abs_refuses le _).bind fun _ _ => .ite (fun _ => ?_) fun _ => hscaled _ _
    exact (Ops.sub_refuses le _ _).bind fun _ _ => hscaled _ _
  · exact .refl

/-- The figure of one shape bounds the loss exactly when the shape is one the rule measures. -/
theorem Figure.bounds_iff {underlying : String → String} {intent : Intent} {price figure : Money}
    {legs : List ComboLeg} (h : Figure intent price figure legs)
    (hlegs : legsOf intent.instrument intent.side = legs) (hq : 0 < intent.quantity.val) (hprice : 0 < price.val) :
    (∀ e, loss underlying intent price e ≤ figure.val) ↔ Measured underlying intent.side legs := by
  cases h with
  | bought hc hside hvalue =>
      rename_i leg c
      rw [hvalue, loss_le_iff hq, hlegs]
      rw [netMultiplier_single hc]
      exact iff_of_true (bought_bounded hc hside hprice) (.inl hside)
  | put hc hside hright hvalue =>
      rename_i leg c
      rw [hvalue, loss_le_iff hq, hlegs]
      rw [netMultiplier_single hc, put_bounded_iff hc hside hright hprice]
      rfl
  | spread ha hb hratios hsides hright hvalue =>
      rename_i a b ca cb
      rw [hvalue, loss_le_iff hq, hlegs]
      obtain ⟨_, ra, sa, _⟩ := a
      obtain ⟨_, rb, sb, _⟩ := b
      dsimp only at ha hb hratios hsides
      subst ha hb
      obtain ⟨rfl, rfl⟩ := hratios
      have hpays : ∀ e, (([⟨.option ca, 1, sa, Int.one_pos⟩, ⟨.option cb, 1, sb, Int.one_pos⟩] :
          List ComboLeg).map (legPayoff underlying e)).sum =
          sa.unit * (ca.multiplier * payoff ca (e.price (underlying ca.underlying))) +
            sb.unit * (cb.multiplier * payoff cb (e.price (underlying cb.underlying))) := by
        intro e
        simp [legPayoff]
      simp only [hpays, netMultiplier]
      cases sa with
      | buy =>
          cases sb with
          | buy => exact absurd rfl hsides
          | sell =>
              refine Iff.trans (forall_congr' fun e => ?_) (spread_bounded_iff price hright)
              rw [units_eq_gap, sub_neg_eq_add]
      | sell =>
          cases sb with
          | sell => exact absurd rfl hsides
          | buy =>
              refine Iff.trans (forall_congr' fun e => ?_) (spread_bounded_iff price hright.symm)
              rw [add_comm (Side.sell.unit * _), units_eq_gap, sub_neg_eq_add]

/-- Where no operation rounds, the figure bounds the loss at every price of the underlyings exactly
when the legs are ones whose worst case the rule measures. -/
theorem max_loss_bounds_iff (D : RustDecimal) (underlying : String → String) {intent : Intent}
    {price figure : Money} (hadmitted : intent.Admitted) (hprice : 0 < price.val)
    (hexact : maxLoss (Arith.code D).exact intent price = .ok (some figure)) :
    maxLoss (.code D) intent price = .ok (some figure) ∧
      ((∀ e, loss underlying intent price e ≤ figure.val) ↔
        Measured underlying intent.side (legsOf intent.instrument intent.side)) :=
  ⟨maxLoss_refuses (Arith.exact_le _) _ _ _ hexact,
    (maxLoss_figure hexact hadmitted.structured).bounds_iff rfl hadmitted.quantity.1 hprice⟩

/-! ## The rule -/

theorem maxLossRule_refuses {A B : Arith} (le : A.Le B) (frac equity : Option Money) (intent : Intent)
    (price : Option Money) :
    Refuses (maxLossRule A frac equity intent price) (maxLossRule B frac equity intent price) := by
  unfold maxLossRule
  split
  · exact .refl
  · refine .bind ?_ fun _ _ => .bind ?_ fun _ _ => .refl
    · split
      · exact maxLoss_refuses le intent _
      · exact .refl
    · unfold capOf
      split
      · exact .map (Ops.mul_refuses le _ _)
      · exact .refl

theorem positive_some {equity : Option Money} {e : Money} (h : positive equity = some e) :
    equity = some e ∧ 0 < e.val := by
  unfold positive at h
  split at h
  · split_ifs at h with hpos
    cases h
    exact ⟨rfl, by simpa using hpos⟩
  · cases h

/-- An entry the rule passes, of a shape it measures, cannot lose more than the fraction of the equity,
where no operation rounds. -/
theorem passed_loss_capped (D : RustDecimal) (underlying : String → String) {intent : Intent} {price frac : Money}
    {equity : Option Money} {result : RuleResult} (hadmitted : intent.Admitted) (hprice : 0 < price.val)
    (hmeasured : Measured underlying intent.side (legsOf intent.instrument intent.side))
    (hexact : maxLossRule (Arith.code D).exact (some frac) equity intent (some price) = .ok result)
    (hpassed : result.passed = true) :
    maxLossRule (.code D) (some frac) equity intent (some price) = .ok result ∧
      ∃ e, equity = some e ∧ 0 < e.val ∧ ∀ x, loss underlying intent price x ≤ e.val * frac.val := by
  refine ⟨maxLossRule_refuses (Arith.exact_le _) _ _ _ _ _ hexact, ?_⟩
  simp only [maxLossRule, bind_eq_ok, pure_eq_ok] at hexact
  obtain ⟨found, hfound, limit, hlimit, rfl⟩ := hexact
  simp only [record, Bool.and_eq_true, Option.isSome_iff_exists] at hpassed
  obtain ⟨⟨⟨figure, rfl⟩, cap, rfl⟩, hle⟩ := hpassed
  have hle : figure.val ≤ cap.val := by simpa [optLe] using hle
  unfold capOf at hlimit
  split at hlimit
  · rename_i e he
    obtain ⟨rfl, hpos⟩ := positive_some he
    obtain ⟨_, hcap, hsome⟩ := except_map_eq_ok.mp hlimit
    cases hsome
    have hbound := ((max_loss_bounds_iff D underlying hadmitted hprice hfound).2).mpr hmeasured
    refine ⟨e, rfl, hpos, fun x => ?_⟩
    calc loss underlying intent price x ≤ figure.val := hbound x
      _ ≤ cap.val := hle
      _ = e.val * frac.val := Ops.exact_mul hcap
  · cases hlimit

end TradeEngine.Risk

namespace TradeEngine.Sample

/-- Pay a debit for the vertical that buys the 150 call and sells the 160 call. -/
def debitVertical : Risk.Intent := ⟨vertical, .buy, units 1, some (units 4)⟩

theorem tenth_lt : (1 : Int).natAbs < mantissaLimit := by decide

theorem tenth_scale : 1 ≤ maxScale := by decide

theorem tenth_canonical : 1 = 0 ∨ (1 : Int) % 10 ≠ 0 := by decide

def tenth : Money := ⟨1, 1, tenth_lt, tenth_scale, tenth_canonical⟩

/-- Pay a debit for the vertical the other way round. -/
def invertedVertical : Risk.Intent :=
  ⟨.combo [⟨.option call, 1, .sell, Int.one_pos⟩, ⟨.option call160, 1, .buy, Int.one_pos⟩], .buy, units 1,
    some .one⟩

end TradeEngine.Sample

namespace TradeEngine.Risk

open Lib

theorem debit_measured : Measured id Sample.debitVertical.side
    (Oms.legsOf Sample.debitVertical.instrument Sample.debitVertical.side) := by
  change Within id (room .buy Sample.call Sample.call160) Sample.call Sample.call160
  have hsame : id Sample.call.underlying = id Sample.call160.underlying := rfl
  rw [Within, if_pos hsame]
  exact (by decide +kernel : Sample.call160.multiplier ≤ Sample.call.multiplier ∧
    Sample.call160.multiplier * (Sample.call.strike.val - Sample.call160.strike.val) ≤
      room .buy Sample.call Sample.call160)

/-- A debit paid for the better leg long is all there is to lose. -/
theorem max_loss_bounds_debit : Intent.Admitted Sample.debitVertical ∧
    ∀ e, loss id Sample.debitVertical (Sample.units 4) e ≤ (Sample.units 400).val := by
  have hadmitted : Intent.Admitted Sample.debitVertical := ⟨by decide +kernel, by decide +kernel⟩
  have hexact : (maxLoss (Arith.code Sample.decimal).exact Sample.debitVertical (Sample.units 4)).toOption =
      some (some (Sample.units 400)) := by decide +kernel
  exact ⟨hadmitted, ((max_loss_bounds_iff Sample.decimal id hadmitted (by decide +kernel)
    (toOption_eq_some.mp hexact)).2).mpr debit_measured⟩

/-- A tenth of an equity of 5,000 lets the vertical through, which loses at most 500. -/
theorem passed_loss_capped_debit : Intent.Admitted Sample.debitVertical ∧
    ∀ x, loss id Sample.debitVertical (Sample.units 4) x ≤ 500 := by
  have hadmitted : Intent.Admitted Sample.debitVertical := ⟨by decide +kernel, by decide +kernel⟩
  have hrule : ((maxLossRule (Arith.code Sample.decimal).exact (some Sample.tenth) (some (Sample.units 5000))
      Sample.debitVertical (some (Sample.units 4))).toOption.any (·.passed)) = true := by decide +kernel
  obtain ⟨result, hresult, hpassed⟩ := (Option.any_eq_true _ _).mp hrule
  obtain ⟨-, e, he, -, hcap⟩ := passed_loss_capped Sample.decimal id hadmitted (by decide +kernel) debit_measured
    (toOption_eq_some.mp hresult) hpassed
  cases he
  exact ⟨hadmitted, fun x => (hcap x).trans (by decide +kernel)⟩

/-- The order pays 1 and owes 10 above 160; the rule measures 1. -/
theorem inverted_vertical_loses_more :
    Intent.Admitted Sample.invertedVertical ∧
    (maxLoss (.code Sample.decimal) Sample.invertedVertical .one).toOption = some (some (Sample.units 100)) ∧
    ¬ ∀ e, loss id Sample.invertedVertical .one e ≤ (Sample.units 100).val := by
  refine ⟨⟨by decide +kernel, by decide +kernel⟩, by decide +kernel, ?_⟩
  intro hall
  have hle := hall (.at "AAPL" 160 0 (by norm_num) le_rfl)
  have hmore : (Sample.units 100).val <
      loss id Sample.invertedVertical .one (.at "AAPL" 160 0 (by norm_num) le_rfl) := by decide +kernel
  exact absurd hle (not_le.mpr hmore)

end TradeEngine.Risk
