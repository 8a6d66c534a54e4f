import TradeEngine.Ledger.Lemmas.Legs
import TradeEngine.Ledger.Lemmas.Expected
import TradeEngine.Ledger.Lemmas.Accounts

/-!
# The ledger's invariants over whole logs

Statements about every log the fold accepts, in the arithmetic the program runs on.
-/

namespace TradeEngine

open Lib

/-- A lot's units with their sign. -/
def Lot.signedQty (l : Lot) : ℚ := l.side.unit * l.quantity.val

/-- The signed cost of every open lot of an account, over its instrument's multiplier. -/
def AccountState.openCost (st : AccountState) : ℚ :=
  (st.positions.values.map fun p =>
    (p.openLots.map fun l => l.signedQty * l.costBasis.val * p.instrument.mult).sum).sum

theorem Position.book_eq_sum (p : Position) : p.book =
    (p.openLots.map fun l => l.signedQty * l.costBasis.val * p.instrument.mult).sum := by
  unfold Position.book lotsBasis
  induction p.openLots with
  | nil => simp
  | cons l lots ih =>
      rw [List.map_cons, Fifo.weigh_cons, mul_add, ih, List.map_cons, List.sum_cons]
      simp only [Lot.view, Lot.signedQty]
      ring

theorem AccountState.openCost_eq (st : AccountState) : st.openCost = bookValue st.positions := by
  simp only [openCost, bookValue, OMap.sumBy, ← Position.book_eq_sum]

/-! ## Sample values -/

namespace Sample

/-- Exact sums where a `Money` holds them, as the library gives at these scales. -/
def decimal : RustDecimal := ⟨fun a b => (a.add b).toOption, fun a b => (a.sub b).toOption⟩

def day : NaiveDate := ⟨2026, 9, 18, by decide, by decide⟩

def noon : DateTime := ⟨day, 43200, 0, 0⟩

def units (n : Nat) : Money := .ofNat n

/-- An AAPL call struck at 150. -/
def call : OptionContract :=
  ⟨"AAPL", day, units 150, .call, 100, by decide +kernel, by decide +kernel, by decide⟩

def market (id command : String) (i : Instrument) (side : Side) (quantity : Money) : Order :=
  ⟨id, "acct", i, .market, side, quantity, command, noon, none, none, none, .day, .new, none, none⟩

/-- An order for five calls. -/
def callOrder : Event :=
  ⟨⟨"acct", .orderSubmitted, .order (market "o1" "c1" (.single (.option call)) .buy (units 5)), noon,
    some "c1", 1, some 1⟩, by decide, by decide⟩

/-- Five calls bought at 2, with a fee of 1. -/
def callFill : Event :=
  ⟨⟨"acct", .fill, .fill ⟨"f1", "o1", "acct", .single (.option call), units 5, units 2, .sim, noon, .buy,
    units 1, none, none, none, by decide, by decide, by decide⟩, noon, some "c2", 1, some 2⟩, by decide, by decide⟩

def deposit : Event :=
  ⟨⟨"acct", .cashFlow, .cashFlow ⟨units 100000⟩, noon, some "c3", 1, some 3⟩, by decide, by decide⟩

/-- Three of the calls exercised with the stock at 170. -/
def callExercise : Event :=
  ⟨⟨"acct", .exercise, .lifecycle ⟨"acct", call, units 3, .buy, units 170, noon, false, by decide,
    by decide, by decide⟩, noon, some "c4", 1, some 4⟩, by decide, by decide⟩

/-- Buy calls, deposit, exercise some of them into shares. -/
def callLog : List Event := [callOrder, callFill, deposit, callExercise]

theorem callLog_folds : ∃ states st, fold (.code decimal) callLog = .ok states ∧
    states.get "acct" = some st := by
  have h : ((fold (.code decimal) callLog).toOption.bind (·.get "acct")).isSome = true := by
    decide +kernel
  obtain ⟨st, hst⟩ := Option.isSome_iff_exists.mp h
  obtain ⟨states, hs, hst⟩ := Option.bind_eq_some_iff.mp hst
  exact ⟨states, st, toOption_eq_some.mp hs, hst⟩

theorem callLog_exact : ExactRun (.code decimal) callLog := by decide +kernel

end Sample

/-! ## Cash is accounted for -/

/-- Over every accepted log in which nothing is rounded, an account's cash is what flowed in, plus
what it realised, less the signed cost of its open lots. -/
theorem fold_cash_identity (D : RustDecimal) {events : List Event} {states : States}
    {account : String} {st : AccountState} (h : fold (.code D) events = .ok states)
    (hx : ExactRun (.code D) events) (hst : states.get account = some st) :
    st.cash.val = cashFlows events account + st.realizedPnl.val - st.openCost := by
  rw [AccountState.openCost_eq]
  exact (fold_balanced hx h hst).identity

theorem fold_cash_identity_calls : ∃ states st, fold (.code Sample.decimal) Sample.callLog = .ok states ∧
    ExactRun (.code Sample.decimal) Sample.callLog ∧ states.get "acct" = some st ∧
    st.cash.val = cashFlows Sample.callLog "acct" + st.realizedPnl.val - st.openCost := by
  obtain ⟨states, st, h, hst⟩ := Sample.callLog_folds
  exact ⟨states, st, h, Sample.callLog_exact, hst,
    fold_cash_identity Sample.decimal h Sample.callLog_exact hst⟩

/-! ## Positions are their lots -/

theorem lotsQty_eq_sum (lots : List Lot) : lotsQty lots = (lots.map Lot.signedQty).sum := by
  rw [lotsQty, Fifo.weigh, List.map_map]
  refine congrArg List.sum (List.map_congr_left fun l _ => ?_)
  simp only [Function.comp_apply, Lot.view, Lot.signedQty]
  ring

theorem Lot.abs_signedQty (l : Lot) : |l.signedQty| = l.quantity.val := by
  rw [Lot.signedQty, abs_mul, Side.abs_unit, one_mul,
    abs_of_pos (Money.val_pos_iff.mpr l.quantity_pos)]

theorem lotsCost_eq_sum (lots : List Lot) :
    lotsCost lots = (lots.map fun l => l.costBasis.val * |l.signedQty|).sum := by
  simp [lotsCost, Fifo.weigh, Lot.view, Lot.abs_signedQty, List.map_map, Function.comp_def, mul_comm]

theorem Position.Ok.lot_side {p : Position} (h : p.Ok) {l : Lot} (hl : l ∈ p.openLots) :
    l.signedQty ≠ 0 ∧ (0 < l.signedQty ↔ 0 < p.quantity.val) := by
  have hq := Money.val_pos_iff.mpr l.quantity_pos
  have hs := h.side_pos l hl
  unfold Lot.signedQty
  cases hside : l.side with
  | buy =>
      simp only [hside, Side.unit, one_mul] at hs ⊢
      exact ⟨hq.ne', by simp [hq, hs]⟩
  | sell =>
      simp only [hside, Side.unit, neg_one_mul, Left.neg_pos_iff] at hs ⊢
      exact ⟨neg_ne_zero.mpr hq.ne', by simp [hq.not_gt, hs.not_gt]⟩

/-- Over every accepted log in which nothing is rounded, a position's quantity is the signed sum of
its lots, every lot is non-zero and on its side, no lots means flat, and the average cost is the
lots' cost per unit. -/
theorem fold_positions_are_lots (D : RustDecimal) {events : List Event} {states : States}
    {account : String} {st : AccountState} {p : Position} (h : fold (.code D) events = .ok states)
    (hx : ExactRun (.code D) events) (hst : states.get account = some st)
    (hp : p ∈ st.positions.values) :
    p.quantity.val = (p.openLots.map Lot.signedQty).sum ∧
      (∀ l ∈ p.openLots, l.signedQty ≠ 0 ∧ (0 < l.signedQty ↔ 0 < p.quantity.val)) ∧
      (p.openLots = [] ↔ p.quantity.val = 0) ∧
      p.avgCost.val * |p.quantity.val| = (p.openLots.map fun l => l.costBasis.val * |l.signedQty|).sum ∧
      (p.quantity.val = 0 → p.avgCost.val = 0) := by
  obtain ⟨e, he, rfl⟩ := List.mem_map.mp hp
  have hok := ((fold_balanced hx h hst).positions e he).1
  rw [← lotsQty_eq_sum, ← lotsCost_eq_sum]
  exact ⟨hok.quantity_eq, fun l hl => hok.lot_side hl, hok.empty_iff, hok.avg_eq, hok.avg_flat⟩

theorem fold_positions_are_lots_calls : ∃ states st p,
    fold (.code Sample.decimal) Sample.callLog = .ok states ∧
    states.get "acct" = some st ∧ p ∈ st.positions.values ∧
    p.quantity.val = (p.openLots.map Lot.signedQty).sum := by
  obtain ⟨states, st, h, hst⟩ := Sample.callLog_folds
  have hne : ((fold (.code Sample.decimal) Sample.callLog).toOption.bind (·.get "acct")).all
      (fun st => !st.positions.values.isEmpty) = true := by decide +kernel
  rw [h] at hne
  simp only [Except.toOption, Option.bind_some, hst, Option.all_some, Bool.not_eq_true',
    List.isEmpty_eq_false_iff] at hne
  obtain ⟨p, hp⟩ := List.exists_mem_of_ne_nil _ hne
  exact ⟨states, st, p, h, hst, hp,
    (fold_positions_are_lots Sample.decimal h Sample.callLog_exact hst hp).1⟩

/-! ## Orders are not over-filled -/

/-- No order has filled more than it asks for; the fills of an order on one contract are on it and
on its side, and their signed sum stays within it. -/
structure NoOverfill (st : AccountState) : Prop where
  filled_le : ∀ id o, st.orders.get id = some o → (st.filled id).val ≤ o.quantity.val
  on_order : ∀ id o, st.orders.get id = some o → o.IsSingle → ∀ f ∈ st.fills, f.orderId = id →
    f.instrument = o.instrument ∧ f.side = o.side
  sum_le : ∀ id o, st.orders.get id = some o → o.IsSingle →
    |((fillsOf st.fills id).map fun f => f.side.unit * f.quantity.val).sum| ≤ o.quantity.val

theorem signed_sum_eq {fills : List Fill} {s : Side} (h : ∀ f ∈ fills, f.side = s) :
    (fills.map fun f => f.side.unit * f.quantity.val).sum =
      s.unit * (fills.map (·.quantity.val)).sum := by
  induction fills with
  | nil => simp
  | cons f fills ih =>
      have hf := h f List.mem_cons_self
      have hrest := ih fun x hx => h x (List.mem_cons_of_mem _ hx)
      simp only [List.map_cons, List.sum_cons, hrest, hf]
      ring

theorem fill_sum_nonneg (fills : List Fill) : 0 ≤ (fills.map (·.quantity.val)).sum := by
  refine List.sum_nonneg fun x hx => ?_
  obtain ⟨f, -, rfl⟩ := List.mem_map.mp hx
  exact (Money.val_pos_iff.mpr f.quantity_pos).le

theorem AccountState.OrdersOk.noOverfill {st : AccountState} (h : st.OrdersOk) : NoOverfill st where
  filled_le id o ho := (h.stored id o ho).filled_le
  on_order id o ho hs f hf hid := by
    refine (h.stored id o ho).on_order hs f ?_
    simp [fillsOf, hf, hid]
  sum_le id o ho hs := by
    have hf := h.stored id o ho
    rw [signed_sum_eq fun f hmem => (hf.on_order hs f hmem).2, abs_mul, Side.abs_unit, one_mul,
      abs_of_nonneg (fill_sum_nonneg _), hf.sum_eq hs]
    exact hf.filled_le

/-- In every run whose second submissions keep instrument, side and filled quantity, and whose
filled quantities are added exactly, no order is ever over-filled: after any prefix of the log. -/
theorem fold_no_overfill (D : RustDecimal) {events pre : List Event} {states : States}
    {account : String} {st : AccountState}
    (hsafe : ∀ a, everyStep (.code D) fillSafe (.new a) ((ordered events).filter (·.account = a)) = true)
    (hpre : pre <+: ordered events) (h : pre.foldlM (foldStep (.code D)) .empty = .ok states)
    (hst : states.get account = some st) : NoOverfill st := by
  obtain ⟨post, hpost⟩ := hpre
  have hrun := foldSteps_get h account
  rw [hst] at hrun
  have hsafe := hsafe account
  rw [← hpost, List.filter_append] at hsafe
  exact (run_ordersOk (everyStep_append_left hsafe) (.new account) hrun).noOverfill

theorem fold_no_overfill_calls : ∃ states st,
    Sample.callLog.foldlM (foldStep (.code Sample.decimal)) .empty = .ok states ∧
    states.get "acct" = some st ∧ NoOverfill st := by
  obtain ⟨states, st, h, hst⟩ := Sample.callLog_folds
  have hord : ordered Sample.callLog = Sample.callLog := by decide +kernel
  refine ⟨states, st, by rw [fold, hord] at h; exact h, hst, ?_⟩
  refine @fold_no_overfill Sample.decimal Sample.callLog _ _ _ _ (fun a => ?_) (List.prefix_refl _) h hst
  rw [hord]
  by_cases ha : a = "acct"
  · subst ha
    decide +kernel
  · have hnone : Sample.callLog.filter (·.account = a) = [] := by
      refine List.filter_eq_nil_iff.mpr fun e he => ?_
      have hacct : e.account = "acct" := by
        simp only [Sample.callLog, List.mem_cons, List.not_mem_nil, or_false] at he
        rcases he with rfl | rfl | rfl | rfl <;> rfl
      simp [hacct, Ne.symm ha]
    rw [hnone]
    rfl

namespace Sample

def shares : Instrument := .single (.equity "AAPL")

/-- Ten shares ordered, five filled, the venue's answer lost and found again, and then a second
submission under the same command, for three. -/
def resubmitLog : List Event :=
  [⟨⟨"acct", .orderSubmitted, .order (market "o1" "c1" shares .buy (units 10)), noon, some "c1", 1,
      some 1⟩, by decide, by decide⟩,
    ⟨⟨"acct", .fill, .fill ⟨"f1", "o1", "acct", shares, units 5, units 2, .sim, noon, .buy, .zero, none,
      none, none, by decide, by decide, by decide⟩, noon, some "c2", 1, some 2⟩, by decide, by decide⟩,
    ⟨⟨"acct", .orderPending, .stateChange ⟨"o1", none, none⟩, noon, some "c3", 1, some 3⟩, by decide,
      by decide⟩,
    ⟨⟨"acct", .orderUpdated, .orderUpdated
      ⟨{ market "o1" "c1" shares .buy (units 10) with state := .submitted }, "found", none⟩, noon,
      some "c4", 1, some 4⟩, by decide, by decide⟩,
    ⟨⟨"acct", .orderSubmitted, .order (market "o1" "c1" shares .buy (units 3)), noon, some "c5", 1,
      some 5⟩, by decide, by decide⟩]

end Sample

/-- The fold accepts a second submission that asks for less than is already filled. -/
theorem fold_overfills_on_resubmit : ∃ states st o,
    fold (.code Sample.decimal) Sample.resubmitLog = .ok states ∧ states.get "acct" = some st ∧
    st.orders.get "o1" = some o ∧ o.quantity.val < (st.filled "o1").val ∧ ¬ NoOverfill st := by
  have h : ((fold (.code Sample.decimal) Sample.resubmitLog).toOption.bind (·.get "acct")).any
      (fun st => (st.orders.get "o1").any fun o => o.quantity.lt (st.filled "o1")) = true := by
    decide +kernel
  rw [Option.any_eq_true] at h
  obtain ⟨st, hst, h⟩ := h
  rw [Option.any_eq_true] at h
  obtain ⟨o, ho, hlt⟩ := h
  rw [Money.lt_iff] at hlt
  obtain ⟨states, hs, hst⟩ := Option.bind_eq_some_iff.mp hst
  exact ⟨states, st, o, toOption_eq_some.mp hs, hst, ho, hlt,
    fun hno => absurd hlt (not_lt.mpr (hno.filled_le _ _ ho))⟩

/-! ## Ended orders stay ended -/

/-- In every accepted extension of a log, an ended order keeps its state, and its filled quantity
unless it is `FILLED`: then a later fill of it may still be booked, within its quantity. -/
theorem fold_keeps_ended (D : RustDecimal) {events pre post : List Event} {before after : States}
    {account id : String} {st : AccountState} {o : Order} (hsplit : ordered events = pre ++ post)
    (hpre : pre.foldlM (foldStep (.code D)) .empty = .ok before)
    (h : fold (.code D) events = .ok after) (hst : before.get account = some st)
    (ho : st.orders.get id = some o) (hend : o.state.Ended) :
    ∃ st' o', after.get account = some st' ∧ st'.orders.get id = some o' ∧ o'.state = o.state ∧
      (st'.filled id = st.filled id ∨ o.state = .filled ∧
        (∃ e ∈ post, e.account = account ∧ ∃ f, e.payload = .fill f ∧ f.orderId = id) ∧
        (st'.filled id).val ≤ o'.quantity.val) := by
  rw [fold, hsplit, List.foldlM_append, bind_eq_ok] at h
  obtain ⟨mid, hmid, h⟩ := h
  rw [hpre] at hmid
  cases hmid
  have hrun := foldSteps_get h account
  rw [hst, Option.getD_some] at hrun
  obtain ⟨o', ho', hs, hfilled⟩ := run_ended hrun ho hend
  cases hafter : after.get account with
  | none => simp [hafter, AccountState.new] at ho'
  | some st' =>
      rw [hafter, Option.getD_some] at ho' hfilled
      refine ⟨st', o', rfl, ho', hs, ?_⟩
      rcases hfilled with ⟨heq, -⟩ | ⟨hf, ⟨e, he, f, hp, hid⟩, hle⟩
      · exact Or.inl heq
      · rw [List.mem_filter, decide_eq_true_eq] at he
        exact Or.inr ⟨hf, ⟨e, he.1, he.2, f, hp, hid⟩, hle⟩

namespace Sample

/-- Ten shares ordered; the venue reports the order filled; then four of the fills arrive. -/
def lateFillLog : List Event :=
  [⟨⟨"acct", .orderSubmitted, .order (market "o1" "c1" shares .buy (units 10)), noon, some "c1", 1,
      some 1⟩, by decide, by decide⟩,
    ⟨⟨"acct", .orderUpdated, .orderUpdated
      ⟨{ market "o1" "c1" shares .buy (units 10) with state := .filled }, "found", none⟩, noon,
      some "c2", 1, some 2⟩, by decide, by decide⟩,
    ⟨⟨"acct", .fill, .fill ⟨"f1", "o1", "acct", shares, units 4, units 2, .sim, noon, .buy, .zero, none,
      none, none, by decide, by decide, by decide⟩, noon, some "c3", 1, some 3⟩, by decide, by decide⟩]

/-- The state of the sample account after a list of events. -/
def after (events : List Event) : Option AccountState :=
  (events.foldlM (foldStep (.code decimal)) .empty).toOption.bind (·.get "acct")

theorem after_eq_some {events : List Event} {st : AccountState} (h : after events = some st) :
    ∃ states, events.foldlM (foldStep (.code decimal)) .empty = .ok states ∧
      states.get "acct" = some st := by
  obtain ⟨states, hs, hst⟩ := Option.bind_eq_some_iff.mp h
  exact ⟨states, toOption_eq_some.mp hs, hst⟩

end Sample

/-- A `FILLED` order whose filled quantity a later fill changes. -/
theorem fold_fills_after_filled : ∃ before after st st' o,
    ordered Sample.lateFillLog = Sample.lateFillLog.take 2 ++ Sample.lateFillLog.drop 2 ∧
    (Sample.lateFillLog.take 2).foldlM (foldStep (.code Sample.decimal)) .empty = .ok before ∧
    fold (.code Sample.decimal) Sample.lateFillLog = .ok after ∧
    before.get "acct" = some st ∧ st.orders.get "o1" = some o ∧ o.state = .filled ∧
    after.get "acct" = some st' ∧ st'.filled "o1" ≠ st.filled "o1" := by
  have hord : ordered Sample.lateFillLog = Sample.lateFillLog := by decide +kernel
  have hbefore : (Sample.after (Sample.lateFillLog.take 2)).any (fun st =>
      (st.orders.get "o1").any (·.state = .filled) && st.filled "o1" = .zero) = true := by
    decide +kernel
  have hafter : (Sample.after Sample.lateFillLog).any (·.filled "o1" = Sample.units 4) = true := by
    decide +kernel
  simp only [Option.any_eq_true, Bool.and_eq_true, decide_eq_true_eq] at hbefore hafter
  obtain ⟨st, hst, ⟨o, ho, hs⟩, hzero⟩ := hbefore
  obtain ⟨st', hst', hfour⟩ := hafter
  obtain ⟨before, hb, hst⟩ := Sample.after_eq_some hst
  obtain ⟨after, ha, hst'⟩ := Sample.after_eq_some hst'
  refine ⟨before, after, st, st', o, ?_, hb, ?_, hst, ho, hs, hst', ?_⟩
  · rw [hord, List.take_append_drop]
  · rw [fold, hord]
    exact ha
  · rw [hzero, hfour]
    decide

theorem fold_keeps_ended_late_fill : ∃ before after st st' o o',
    (Sample.lateFillLog.take 2).foldlM (foldStep (.code Sample.decimal)) .empty = .ok before ∧
    fold (.code Sample.decimal) Sample.lateFillLog = .ok after ∧
    before.get "acct" = some st ∧ st.orders.get "o1" = some o ∧ o.state.Ended ∧
    after.get "acct" = some st' ∧ st'.orders.get "o1" = some o' ∧ o'.state = o.state := by
  have hord : ordered Sample.lateFillLog = Sample.lateFillLog := by decide +kernel
  have hbefore : (Sample.after (Sample.lateFillLog.take 2)).any (fun st =>
      (st.orders.get "o1").any (·.state = .filled)) = true := by decide +kernel
  have hafter : (Sample.after Sample.lateFillLog).isSome = true := by decide +kernel
  simp only [Option.any_eq_true, decide_eq_true_eq] at hbefore
  obtain ⟨st, hst, o, ho, hs⟩ := hbefore
  obtain ⟨st', hst'⟩ := Option.isSome_iff_exists.mp hafter
  obtain ⟨before, hb, hst⟩ := Sample.after_eq_some hst
  obtain ⟨after, ha, -⟩ := Sample.after_eq_some hst'
  have hsplit : ordered Sample.lateFillLog =
      Sample.lateFillLog.take 2 ++ Sample.lateFillLog.drop 2 := by
    rw [hord, List.take_append_drop]
  have hfold : fold (.code Sample.decimal) Sample.lateFillLog = .ok after := by
    rw [fold, hord]
    exact ha
  obtain ⟨st', o', hst', ho', hstate, -⟩ :=
    fold_keeps_ended Sample.decimal hsplit hb hfold hst ho (Or.inl hs)
  exact ⟨before, after, st, st', o, o', hb, hfold, hst, ho, Or.inl hs, hst', ho', hstate⟩

/-! ## Combo legs are not over-filled -/

/-- No leg of a combo order has filled more than its share of the order; once the order has a fill
its filled quantity is the least of its legs' units, and reaches the order's quantity exactly when
every leg is complete. -/
structure NoLegOverfill (st : AccountState) : Prop where
  leg_le : ∀ id o legs, st.orders.get id = some o → o.instrument = .combo legs →
    ∀ i l, legs[i]? = some l → st.legQty id i ≤ o.quantity.val * l.ratio
  least : ∀ id o legs q, st.orders.get id = some o → o.instrument = .combo legs →
    st.filledQuantity.get id = some q →
    IsLeast {x | ∃ i l, legs[i]? = some l ∧ x = st.legQty id i / l.ratio} q.val
  complete : ∀ id o legs q, st.orders.get id = some o → o.instrument = .combo legs →
    st.filledQuantity.get id = some q →
    (q.val = o.quantity.val ↔ ∀ i l, legs[i]? = some l → st.legQty id i = o.quantity.val * l.ratio)

theorem AccountState.LegsOk.noLegOverfill {st : AccountState} (h : st.LegsOk) : NoLegOverfill st where
  leg_le id o legs ho hlegs := (h.stored id o ho).leg_le legs hlegs
  least id o legs q ho hlegs hq := (h.stored id o ho).least legs hlegs q hq
  complete id o legs q ho hlegs hq := by
    obtain ⟨⟨j, m, hm, hqm⟩, hlow⟩ := (h.stored id o ho).least legs hlegs q hq
    have hratio : ∀ l : ComboLeg, (0 : ℚ) < l.ratio := fun l => by exact_mod_cast l.ratio_pos
    constructor
    · intro heq i l hl
      have hle := (h.stored id o ho).leg_le legs hlegs i l hl
      have hge := hlow ⟨i, l, hl, rfl⟩
      rw [heq, le_div_iff₀ (hratio l)] at hge
      exact le_antisymm hle hge
    · intro hall
      rw [hqm, hall j m hm, mul_div_assoc, div_self (hratio m).ne', mul_one]

/-- In every run whose leg quantities are computed exactly and whose amendments and second
submissions leave every leg its share, no leg is ever over-filled: after any prefix of the log. -/
theorem fold_no_leg_overfill (D : RustDecimal) {events pre : List Event} {states : States}
    {account : String} {st : AccountState}
    (hexact : ∀ a, everyStep (.code D) (legsExactAt (.code D)) (.new a)
      ((ordered events).filter (·.account = a)) = true)
    (hsafe : ∀ a, everyStep (.code D) amendKeepsLegs (.new a)
      ((ordered events).filter (·.account = a)) = true)
    (hpre : pre <+: ordered events) (h : pre.foldlM (foldStep (.code D)) .empty = .ok states)
    (hst : states.get account = some st) : NoLegOverfill st := by
  obtain ⟨post, hpost⟩ := hpre
  have hrun := foldSteps_get h account
  rw [hst] at hrun
  have hsafe := hsafe account
  have hexact := hexact account
  rw [← hpost, List.filter_append] at hsafe hexact
  exact (run_legsOk (everyStep_append_left hsafe) (everyStep_append_left hexact) (.new account)
    hrun).noLegOverfill

namespace Sample

/-- An AAPL call struck at 160. -/
def call160 : OptionContract :=
  ⟨"AAPL", day, units 160, .call, 100, by decide +kernel, by decide +kernel, by decide⟩

/-- Buy the 150 call, sell the 160 call. -/
def vertical : Instrument :=
  .combo [⟨.option call, 1, .buy, by decide⟩, ⟨.option call160, 1, .sell, by decide⟩]

def verticalOrder (quantity : Money) : Order := market "o1" "c1" vertical .buy quantity

/-- Ten verticals ordered, eight of the long leg filled. -/
def legFillLog : List Event :=
  [⟨⟨"acct", .orderSubmitted, .order (verticalOrder (units 10)), noon, some "c1", 1, some 1⟩,
      by decide, by decide⟩,
    ⟨⟨"acct", .fill, .fill ⟨"f1", "o1", "acct", .single (.option call), units 8, units 2, .sim, noon, .buy,
      .zero, some "0", none, none, by decide, by decide, by decide⟩, noon, some "c2", 1, some 2⟩,
      by decide, by decide⟩]

/-- The same, and then the order amended to five. -/
def legAmendLog : List Event :=
  legFillLog ++ [⟨⟨"acct", .orderUpdated, .orderUpdated
      ⟨{ verticalOrder (units 5) with state := .partiallyFilled }, "amend", none⟩, noon, some "c3", 1,
      some 3⟩, by decide, by decide⟩]

end Sample

theorem fold_no_leg_overfill_vertical : ∃ states st,
    Sample.legFillLog.foldlM (foldStep (.code Sample.decimal)) .empty = .ok states ∧
    states.get "acct" = some st ∧ NoLegOverfill st := by
  have hord : ordered Sample.legFillLog = Sample.legFillLog := by decide +kernel
  have hsome : (Sample.after Sample.legFillLog).isSome = true := by decide +kernel
  obtain ⟨st, hst⟩ := Option.isSome_iff_exists.mp hsome
  obtain ⟨states, h, hst⟩ := Sample.after_eq_some hst
  -- the log has no other account
  have hother : ∀ a, a ≠ "acct" → Sample.legFillLog.filter (·.account = a) = [] := by
    intro a ha
    refine List.filter_eq_nil_iff.mpr fun e he => ?_
    have hacct : e.account = "acct" := by
      simp only [Sample.legFillLog, List.mem_cons, List.not_mem_nil, or_false] at he
      rcases he with rfl | rfl <;> rfl
    simp [hacct, Ne.symm ha]
  refine ⟨states, st, h, hst, @fold_no_leg_overfill Sample.decimal Sample.legFillLog _ _ _ _
    (fun a => ?_) (fun a => ?_) (hord ▸ List.prefix_refl _) h hst⟩
  · rw [hord]
    by_cases ha : a = "acct"
    · subst ha
      decide +kernel
    · rw [hother a ha]
      rfl
  · rw [hord]
    by_cases ha : a = "acct"
    · subst ha
      decide +kernel
    · rw [hother a ha]
      rfl

/-- The fold accepts an amendment below what a leg has filled, with no quantity rounded. -/
theorem fold_amends_below_leg : ∃ states st,
    fold (.code Sample.decimal) Sample.legAmendLog = .ok states ∧ states.get "acct" = some st ∧
    everyStep (.code Sample.decimal) (legsExactAt (.code Sample.decimal)) (.new "acct")
      Sample.legAmendLog = true ∧ ¬ NoLegOverfill st := by
  have hord : ordered Sample.legAmendLog = Sample.legAmendLog := by decide +kernel
  have hsome : (Sample.after Sample.legAmendLog).any (fun st =>
      (st.orders.get "o1").any (fun o => o.instrument = Sample.vertical && o.quantity = Sample.units 5) &&
        decide (st.legQty "o1" 0 = 8)) = true := by decide +kernel
  simp only [Option.any_eq_true, Bool.and_eq_true, decide_eq_true_eq] at hsome
  obtain ⟨st, hst, ⟨o, ho, hi, hq⟩, hleg⟩ := hsome
  obtain ⟨states, h, hst⟩ := Sample.after_eq_some hst
  refine ⟨states, st, by rw [fold, hord]; exact h, hst, by decide +kernel, fun hno => ?_⟩
  have hle := hno.leg_le "o1" o _ ho hi 0 _ rfl
  rw [hleg, hq] at hle
  revert hle
  decide +kernel

/-! ## The mirror -/

/-- What a mirror's tickets, book and indexes say of one another. -/
structure MirrorHolds (m : MirrorState) : Prop where
  sum_eq : ∀ key t, m.tickets.get key = some t → t.allocated.sumBy Money.val = t.filled.val
  filled_le : ∀ key t, m.tickets.get key = some t → t.filled.val ≤ t.queued.quantity.val
  each_le : ∀ key t, m.tickets.get key = some t → ∀ a ∈ t.queued.allocations,
    0 ≤ given t.allocated a.strategyOrderId ∧ given t.allocated a.strategyOrderId ≤ a.quantity.val
  book : ∀ account c, bookQty m.book account c =
    m.tickets.sumBy fun t => t.contracts account c.hk
  one_ticket : ∀ key key' t t', m.tickets.get key = some t → m.tickets.get key' = some t' →
    ∀ a ∈ t.queued.allocations, ∀ b ∈ t'.queued.allocations,
      a.strategyOrderId = b.strategyOrderId → key = key' ∧ a = b
  not_refused : ∀ key t, m.tickets.get key = some t → ∀ a ∈ t.queued.allocations,
    m.queuedOrders.get a.strategyOrderId = some key ∧ m.refusedOrders.get a.strategyOrderId = none
  orderIds : ∀ v key, m.orderIds.get v = some key ↔
    ∃ t, m.tickets.get key = some t ∧ t.venueOrderId = some v

theorem MirrorState.Ok.holds {m : MirrorState} (h : m.Ok) : MirrorHolds m where
  sum_eq key t ht := (h.tickets key t ht).table
  filled_le key t ht := (h.tickets key t ht).filled_le
  each_le key t ht a ha := ((h.tickets key t ht).each a ha).2
  book := h.book
  one_ticket key key' t t' ht ht' a ha b hb hid := by
    have hq := (h.queued a.strategyOrderId key).mpr ⟨t, ht, a, ha, rfl⟩
    have hq' := (h.queued b.strategyOrderId key').mpr ⟨t', ht', b, hb, rfl⟩
    rw [hid, hq'] at hq
    have hkey := (Option.some.inj hq).symm
    subst hkey
    cases ht.symm.trans ht'
    exact ⟨rfl, List.inj_on_of_nodup_map (h.tickets key t ht).ids ha hb hid⟩
  not_refused key t ht a ha := by
    have hq := (h.queued a.strategyOrderId key).mpr ⟨t, ht, a, ha, rfl⟩
    refine ⟨hq, (h.apart a.strategyOrderId).resolve_left ?_⟩
    rw [hq]
    simp
  orderIds := h.orderIds

/-- In every run whose mirror events round no sum, difference or product, the mirror's tickets, book
and indexes agree. -/
theorem fold_mirror_holds (D : RustDecimal) {events : List Event} {states : States}
    {account : String} {st : AccountState}
    (hexact : everyStep (.code D) (mirrorExact D) (.new account)
      ((ordered events).filter (·.account = account)) = true)
    (h : fold (.code D) events = .ok states) (hst : states.get account = some st) :
    MirrorHolds st.mirror := by
  have hrun := foldSteps_get h account
  rw [hst] at hrun
  exact (run_mirrorOk hexact .new hrun).holds

namespace Sample

/-- A call of the same series, struck higher. -/
def higherCall : OptionContract :=
  ⟨"AAPL", day, units 160, .call, 100, by decide +kernel, by decide +kernel, by decide⟩

/-- A mirror event of the venue `paper`. -/
def mirrorEvent (seq : Nat) (kind : EventKind) (payload : Obj)
    (hb : checkPayload payload = .ok () := by decide +kernel)
    (hc : checkEvent ⟨"__venue__:paper", kind, payload, noon, none, 1, some seq⟩ = .ok () := by
      decide +kernel) : Event :=
  ⟨⟨"__venue__:paper", kind, payload, noon, none, 1, some seq⟩, hb, hc⟩

/-- A strategy order's place on a ticket. -/
def place (id : String) (n : Nat) (hpos : 0 < (units n).mantissa := by decide)
    (hwhole : (units n).isIntegral = true := by rfl) : MirrorAllocation :=
  ⟨id, "acct", units n, hpos, hwhole⟩

def ticket (key : String) (i : Instrument) (n : Money) (places : List MirrorAllocation) : Obj :=
  .mQueued ⟨"paper", key, i, .buy, n, .market, none, .day, places, noon⟩

def acked (key id : String) : Obj := .mAck ⟨"paper", key, .accepted, "ok", noon, some id, none⟩

def filled (key id : String) (n : Money) : Obj := .mFill ⟨"paper", key, id, n, units 2, noon⟩

/-- Three calls for two strategy orders, filled in two parts. -/
def mirrorLog : List Event :=
  [mirrorEvent 1 .mirrorQueued
    (ticket "t1" (.single (.option call)) (units 3) [place "s1" 2, place "s2" 1]),
   mirrorEvent 2 .mirrorAck (acked "t1" "11"),
   mirrorEvent 3 .mirrorFill (filled "t1" "11" (units 2)),
   mirrorEvent 4 .mirrorFill (filled "t1" "11" (units 3))]

/-- One vertical of enormous ratio, and then one more of its first call. -/
def wideLog : List Event :=
  [mirrorEvent 1 .mirrorQueued
    (ticket "t1" (.combo [⟨.option call, 7 * 10 ^ 28, .buy, by decide⟩,
      ⟨.option higherCall, 7 * 10 ^ 28, .sell, by decide⟩]) (units 1) [place "s1" 1]),
   mirrorEvent 2 .mirrorAck (acked "t1" "11"),
   mirrorEvent 3 .mirrorFill (filled "t1" "11" (units 1)),
   mirrorEvent 4 .mirrorQueued (ticket "t2" (.single (.option call)) (units 1) [place "s2" 1]),
   mirrorEvent 5 .mirrorAck (acked "t2" "12"),
   mirrorEvent 6 .mirrorFill (filled "t2" "12" (units 1))]

end Sample

theorem fold_mirror_holds_calls : ∃ states st,
    fold (.code Sample.decimal) Sample.mirrorLog = .ok states ∧
    states.get "__venue__:paper" = some st ∧ MirrorHolds st.mirror := by
  have hfold : ((fold (.code Sample.decimal) Sample.mirrorLog).toOption.bind fun states =>
      states.get "__venue__:paper").isSome = true := by decide +kernel
  obtain ⟨st, hst⟩ := Option.isSome_iff_exists.mp hfold
  obtain ⟨states, hstates, hst⟩ := Option.bind_eq_some_iff.mp hst
  rw [toOption_eq_some] at hstates
  exact ⟨states, st, hstates, hst, fold_mirror_holds Sample.decimal (by decide +kernel) hstates hst⟩

/-- The program's arithmetic with every rounded product refused. -/
def Arith.exactMul (A : Arith) : Arith := { A with mul := A.exact.mul }

theorem Arith.exactMul_le (A : Arith) : A.exactMul.Le A where
  add _ _ := .refl
  sub _ _ := .refl
  mul _ _ := keepExact_refuses
  div _ _ := .refl
  neg _ := .refl
  abs _ := .refl
  decAdd _ _ := .refl
  decSub _ _ := .refl

/-- No product is rounded, and the book loses a contract in a sum. -/
theorem wide_book_loses_a_contract : ∃ states st,
    fold (Arith.exactMul (.code Sample.decimal)) Sample.wideLog = .ok states ∧
    fold (.code Sample.decimal) Sample.wideLog = .ok states ∧
    states.get "__venue__:paper" = some st ∧
    bookQty st.mirror.book "acct" (.option Sample.call) = 7 * 10 ^ 28 ∧
    (st.mirror.tickets.sumBy fun t => t.contracts "acct" (Contract.option Sample.call).hk) =
      7 * 10 ^ 28 + 1 := by
  have hfold : ((fold (Arith.exactMul (.code Sample.decimal)) Sample.wideLog).toOption.bind fun states =>
      states.get "__venue__:paper").map (fun st =>
        (bookQty st.mirror.book "acct" (.option Sample.call),
          st.mirror.tickets.sumBy fun t => t.contracts "acct" (Contract.option Sample.call).hk)) =
      some (7 * 10 ^ 28, 7 * 10 ^ 28 + 1) := by decide +kernel
  obtain ⟨st, hst, hvals⟩ := Option.map_eq_some_iff.mp hfold
  obtain ⟨states, hstates, hst⟩ := Option.bind_eq_some_iff.mp hst
  rw [toOption_eq_some] at hstates
  obtain ⟨hbook, hsum⟩ := Prod.mk.inj hvals
  exact ⟨states, st, hstates, fold_refuses (Arith.exactMul_le _) _ _ hstates, hst, hbook, hsum⟩

/-! ## The exposure and the expected book -/

/-- Neither count of a mirror rounds a sum, difference or product. -/
def countsExactly (D : RustDecimal) (m : MirrorState) : Bool :=
  (m.exposure (Unrounded D)).toOption.isSome && (m.expected (Unrounded D)).toOption.isSome

/-- In every reachable mirror the strategies together are exposed to what the venue is expected to
hold, contract by contract. -/
theorem fold_exposure_is_expected (D : RustDecimal) {events : List Event} {states : States}
    {account : String} {st : AccountState} {x : OMap (String × Contract) Money}
    {y : OMap Contract Money}
    (hexact : everyStep (.code D) (mirrorExact D) (.new account)
      ((ordered events).filter (·.account = account)) = true)
    (h : fold (.code D) events = .ok states) (hst : states.get account = some st)
    (hcounts : countsExactly D st.mirror = true) (hx : st.mirror.exposure (.code D) = .ok x)
    (hy : st.mirror.expected (.code D) = .ok y) (c : Contract) :
    overAccounts c.hk x = onHand c.hk y := by
  have hrun := foldSteps_get h account
  rw [hst] at hrun
  have hok : st.mirror.Ok := run_mirrorOk hexact .new hrun
  have hkeyed : BookKeyed st.mirror.book := run_bookKeyed hrun .empty
  simp only [countsExactly, Bool.and_eq_true] at hcounts
  obtain ⟨x', hx'⟩ := Option.isSome_iff_exists.mp hcounts.1
  obtain ⟨y', hy'⟩ := Option.isSome_iff_exists.mp hcounts.2
  rw [toOption_eq_some] at hx' hy'
  have hsame := exposure_refuses (Arith.exactButDiv_le _) _ _ hx'
  have hsame' := expected_refuses (Arith.exactButDiv_le _) _ _ hy'
  rw [hx] at hsame
  rw [hy] at hsame'
  cases hsame
  cases hsame'
  rw [exposure_spec hok.openTickets hkeyed hx', expected_spec hy']

namespace Sample

/-- Three calls of which two have filled. -/
def restingLog : List Event := mirrorLog.take 3

/-- One vertical of enormous ratio in one account, and one of its first call in another. -/
def twoAccountLog : List Event :=
  [mirrorEvent 1 .mirrorQueued
    (ticket "t1" (.combo [⟨.option call, 7 * 10 ^ 28, .buy, by decide⟩,
      ⟨.option higherCall, 7 * 10 ^ 28, .sell, by decide⟩]) (units 1) [place "s1" 1]),
   mirrorEvent 2 .mirrorQueued (ticket "t2" (.single (.option call)) (units 1)
    [⟨"s2", "other", units 1, by decide, rfl⟩])]

end Sample

theorem fold_exposure_is_expected_resting : ∃ states st x y,
    fold (.code Sample.decimal) Sample.restingLog = .ok states ∧
    states.get "__venue__:paper" = some st ∧ st.mirror.exposure (.code Sample.decimal) = .ok x ∧
    st.mirror.expected (.code Sample.decimal) = .ok y ∧
    overAccounts (Contract.option Sample.call).hk x = onHand (Contract.option Sample.call).hk y := by
  have hfold : ((fold (.code Sample.decimal) Sample.restingLog).toOption.bind fun states =>
      states.get "__venue__:paper").any (fun st => countsExactly Sample.decimal st.mirror) = true := by
    decide +kernel
  rw [Option.any_eq_true] at hfold
  obtain ⟨st, hst, hcounts⟩ := hfold
  obtain ⟨states, hstates, hst⟩ := Option.bind_eq_some_iff.mp hst
  rw [toOption_eq_some] at hstates
  have hsome := hcounts
  simp only [countsExactly, Bool.and_eq_true] at hsome
  obtain ⟨x, hx⟩ := Option.isSome_iff_exists.mp hsome.1
  obtain ⟨y, hy⟩ := Option.isSome_iff_exists.mp hsome.2
  rw [toOption_eq_some] at hx hy
  have hx := exposure_refuses (Arith.exactButDiv_le _) _ _ hx
  have hy := expected_refuses (Arith.exactButDiv_le _) _ _ hy
  exact ⟨states, st, x, y, hstates, hst, hx, hy, fold_exposure_is_expected Sample.decimal
    (by decide +kernel) hstates hst hcounts hx hy (.option Sample.call)⟩

/-- No product is rounded, the strategies are exposed to one contract more than the venue is expected
to hold. -/
theorem wide_expected_loses_a_contract : ∃ states st x y,
    fold (Arith.exactMul (.code Sample.decimal)) Sample.twoAccountLog = .ok states ∧
    fold (.code Sample.decimal) Sample.twoAccountLog = .ok states ∧
    states.get "__venue__:paper" = some st ∧
    st.mirror.exposure (Arith.exactMul (.code Sample.decimal)) = .ok x ∧
    st.mirror.exposure (.code Sample.decimal) = .ok x ∧
    st.mirror.expected (Arith.exactMul (.code Sample.decimal)) = .ok y ∧
    st.mirror.expected (.code Sample.decimal) = .ok y ∧
    overAccounts (Contract.option Sample.call).hk x = 7 * 10 ^ 28 + 1 ∧
    onHand (Contract.option Sample.call).hk y = 7 * 10 ^ 28 := by
  have hfold : ((fold (Arith.exactMul (.code Sample.decimal)) Sample.twoAccountLog).toOption.bind
      fun states => states.get "__venue__:paper").any (fun st =>
        (st.mirror.exposure (Arith.exactMul (.code Sample.decimal))).toOption.any (fun x =>
          overAccounts (Contract.option Sample.call).hk x = 7 * 10 ^ 28 + 1) &&
        (st.mirror.expected (Arith.exactMul (.code Sample.decimal))).toOption.any fun y =>
          onHand (Contract.option Sample.call).hk y = 7 * 10 ^ 28) = true := by
    decide +kernel
  simp only [Option.any_eq_true, Bool.and_eq_true, decide_eq_true_eq] at hfold
  obtain ⟨st, hst, ⟨x, hx, hmore⟩, y, hy, hless⟩ := hfold
  obtain ⟨states, hstates, hst⟩ := Option.bind_eq_some_iff.mp hst
  rw [toOption_eq_some] at hstates hx hy
  exact ⟨states, st, x, y, hstates, fold_refuses (Arith.exactMul_le _) _ _ hstates, hst, hx,
    exposure_refuses (Arith.exactMul_le _) _ _ hx, hy, expected_refuses (Arith.exactMul_le _) _ _ hy,
    hmore, hless⟩

/-! ## An account alone -/

/-- In every log that folds, numbered throughout or not at all, an account folded alone has the state
it has in the whole log; and no log that differs from it in other accounts only gives it another. -/
theorem account_folds_alone (A : Arith) {events : List Event} {states : States} (hn : Numbered events)
    (h : fold A events = .ok states) (a : String) :
    foldAccount A events a = .ok ((states.get a).getD (.new a)) ∧
      ∀ events' states', Numbered events' → fold A events' = .ok states' →
        events'.filter (·.account = a) = events.filter (·.account = a) →
          (states'.get a).getD (.new a) = (states.get a).getD (.new a) := by
  have hone := foldAccount_eq hn h a
  refine ⟨hone, ?_⟩
  intro events' states' hn' h' hsame
  have hother := foldAccount_eq hn' h' a
  rw [foldAccount, ordered_filter hn' a, hsame, ← ordered_filter hn a, ← foldAccount, hone] at hother
  exact (Except.ok.inj hother).symm

namespace Sample

/-- The calls and a deposit elsewhere, the newest event first. -/
def sharedLog : List Event :=
  ⟨⟨"other", .cashFlow, .cashFlow ⟨units 100⟩, noon, some "c5", 1, some 5⟩, by decide, by decide⟩ ::
    callLog.reverse

end Sample

theorem account_folds_alone_shared : ∃ states, Numbered Sample.sharedLog ∧
    fold (.code Sample.decimal) Sample.sharedLog = .ok states ∧
    foldAccount (.code Sample.decimal) Sample.sharedLog "acct" = .ok ((states.get "acct").getD (.new "acct")) := by
  have hn : Numbered Sample.sharedLog := Or.inl ⟨by decide, by decide⟩
  have hrun : (fold (.code Sample.decimal) Sample.sharedLog).toOption.isSome = true := by decide +kernel
  obtain ⟨states, hstates⟩ := Option.isSome_iff_exists.mp hrun
  rw [toOption_eq_some] at hstates
  exact ⟨states, hn, hstates, (account_folds_alone (.code Sample.decimal) hn hstates "acct").1⟩

end TradeEngine
