import TradeEngine.Ledger.Lemmas.Identity

/-!
# Expiry, exercise and assignment

Settling in cash closes lots at their exit price. Settling in shares moves the basis of the lots
taken off the option into the shares they deliver: the strike is paid, the premium is in the price.
-/

namespace TradeEngine

open Lib

variable {A : Arith}

/-- The position a lifecycle event settles: open, held on the event's side, and large enough. -/
theorem lifecyclePosition_ok {st : AccountState} {label : String} {n : OptionLifecycle}
    {p : Position} (h : lifecyclePosition A.exact st label n = .ok p) :
    st.positions.get (Contract.option n.contract).hk = some p ∧
      sideOf p.quantity.val = n.held ∧ n.quantity.val ≤ |p.quantity.val| := by
  simp only [lifecyclePosition, bind_eq_ok, refuseIf_eq_ok, pure_eq_ok] at h
  obtain ⟨q, hq, _, hheld, b, hb, _, hle, rfl⟩ := h
  refine ⟨?_, ?_, ?_⟩
  · split at hq
    · rename_i q' hget
      split at hq
      · simp [fe] at hq
      · rw [pure_eq_ok] at hq
        rw [hget, hq]
    · simp [fe] at hq
  · rw [not_not] at hheld
    rw [← hheld, sideOf]
    by_cases hp : 0 < q.quantity.val
    · rw [if_pos hp, if_pos (by rw [Money.gt_iff, Money.val_zero]; exact hp)]
    · rw [if_neg hp, if_neg (by rw [Money.gt_iff, Money.val_zero]; exact hp)]
  · rw [Money.gt_iff, not_lt, Ops.exact_abs hb] at hle
    exact hle

/-- The books after settling: positions, cash and profit of the account with what is still owed to
the shares. -/
structure SettledOk (flows owed : ℚ) (st : AccountState) (s : Settled) : Prop where
  positions : PositionsOk s.positions
  identity : s.cash.val =
    flows + st.realizedPnl.val + s.realized.val - bookValue s.positions - owed

theorem signed_cash {side : Side} {a x r : Money}
    (h : (if side = .buy then Ops.add A.exact a x else Ops.sub A.exact a x) = .ok r) :
    r.val = a.val + side.unit * x.val := by
  split at h
  · rename_i hs
    rw [Ops.exact_add h, hs, Side.unit, one_mul]
  · have hs : side = .sell := by cases hl : side <;> simp_all
    rw [Ops.exact_sub h, hs, Side.unit]
    ring

theorem paid_cash {side : Side} {a x r : Money}
    (h : (if side = .buy then Ops.sub A.exact a x else Ops.add A.exact a x) = .ok r) :
    r.val = a.val - side.unit * x.val := by
  split at h
  · rename_i hs
    rw [Ops.exact_sub h, hs, Side.unit, one_mul]
  · have hs : side = .sell := by cases hl : side <;> simp_all
    rw [Ops.exact_add h, hs, Side.unit]
    ring

/-- Rewriting the settled contract's position: it stays filed under the contract's key. -/
theorem settled_insert {ps : OMap Instrument Position} (hps : PositionsOk ps) {c : OptionContract}
    {p p' : Position} (hg : ps.get (Contract.option c).hk = some p) (hok : p'.Ok)
    (hi : p'.instrument = p.instrument) (k : Instrument) :
    PositionsOk (ps.insert (Contract.option c).hk k p') ∧
      bookValue (ps.insert (Contract.option c).hk k p') =
        bookValue ps + c.multiplier * (lotsBasis p'.openLots - lotsBasis p.openLots) := by
  obtain ⟨k', hmem⟩ := OMap.mem_of_get hg
  obtain ⟨-, d, hd, hk, m, hm⟩ := hps _ hmem
  simp only at hd hk
  have hmult : m = c.multiplier := Contract.multiplier_of_hk (d := .option c) hk.symm hm rfl
  rw [hk] at hg ⊢
  refine ⟨hps.insert hm hok (hi.trans hd) k, ?_⟩
  rw [bookValue_insert hps hm (hi.trans hd), hg, hmult]
  rfl

theorem settleCash_balanced {flows : ℚ} {st : AccountState} {n : OptionLifecycle} {p : Position}
    {exit : Money} {s : Settled} (hb : Balanced flows st)
    (hg : st.positions.get (Contract.option n.contract).hk = some p)
    (hheld : sideOf p.quantity.val = n.held) (hle : n.quantity.val ≤ |p.quantity.val|)
    (h : settleCash A.exact st n p exit = .ok s) : SettledOk flows 0 st s := by
  simp only [settleCash, bind_eq_ok, pure_eq_ok] at h
  obtain ⟨⟨kept, pnl⟩, hclose, realized, hr, rp, hrp, rem, hrem, x, hx, amount, ha, cash, hcash, rfl⟩ := h
  have hp := hb.positions.get hg
  have hu : Uniform n.held p.openLots := hheld ▸ hp.uniform
  have hq : 0 ≤ n.quantity.val := (Money.val_pos_iff.mpr n.quantity_pos).le
  obtain ⟨hku, -, hpnl⟩ := consumeLots_uniform hu hq (hp.abs_quantity ▸ hle) hclose
  obtain ⟨hok, hi, -, hlots⟩ := remainingPosition_exact hku hrem
  obtain ⟨hpos, hbook⟩ := settled_insert hb.positions hg hok hi (.single (.option n.contract))
  refine ⟨hpos, ?_⟩
  change cash.val = flows + st.realizedPnl.val + realized.val - bookValue (st.positions.insert
    (Contract.option n.contract).hk (.single (.option n.contract)) rem) - 0
  rw [hbook, signed_cash hcash, Ops.exact_mulI ha, Ops.exact_mul hx, Ops.exact_add hr, hpnl, hlots,
    hb.identity, Money.val_zero]
  ring

/-- The terms of a delivery: the premium raises a call's price and lowers a put's. -/
theorem delivery_exact {c : OptionContract} {held : Side} {premium price : Money} {buys : Bool}
    (h : delivery A.exact c (held = .buy) premium = .ok (buys, price)) :
    (if buys then Side.buy else .sell).unit * price.val =
      (if buys then Side.buy else .sell).unit * c.strike.val + held.unit * premium.val := by
  unfold delivery at h
  split at h
  · cases h
  · simp only at h
    split at h
    · rename_i hr
      simp only [bind_eq_ok, pure_eq_ok, Prod.mk.injEq, except_mapError_eq_ok] at h
      obtain ⟨x, hx, rfl, rfl⟩ := h
      rw [Arith.exact_decAdd hx, hr]
      cases held with
      | buy => simp [Side.unit]
      | sell => simp [Side.unit]; ring
    · rename_i hr
      have hput : c.right = .put := by cases hc : c.right <;> simp_all
      simp only [bind_eq_ok, except_mapError_eq_ok] at h
      obtain ⟨x, hx, h⟩ := h
      split at h
      · simp only [bind_eq_ok] at h
        obtain ⟨_, -, h⟩ := h
        cases h
      · simp only [pure_eq_ok, Prod.mk.injEq] at h
        obtain ⟨rfl, rfl⟩ := h
        rw [Arith.exact_decSub hx, hput]
        cases held with
        | buy => simp [Side.unit]; ring
        | sell => simp [Side.unit]; ring

/-- One delivered lot hands its share of the basis over to the shares. -/
theorem deliverLot_balanced {flows owed : ℚ} {st : AccountState} {label : String}
    {n : OptionLifecycle} {kind : EventKind} {shares : Contract} {acc s : Settled} {lot : Lot}
    (hshares : shares.multiplier = .ok 1) (hside : lot.side = n.held)
    (hb : SettledOk flows (n.contract.multiplier * lotsBasis [lot] + owed) st acc)
    (h : deliverLot A.exact st.accountId label n kind n.held shares acc lot = .ok s) :
    SettledOk flows owed st s := by
  simp only [deliverLot, bind_eq_ok, pure_eq_ok, except_mapError_eq_ok] at h
  obtain ⟨⟨buys, price⟩, hterms, q, hq, m, hm, p', htrade, d, hd, realized, hreal, paid, hpaid, cash,
    hcash, rfl⟩ := h
  have hm1 : m = 1 := by
    have hm' : shares.multiplier = .ok m := hm
    rw [hshares] at hm'
    exact (Except.ok.inj hm').symm
  subst hm1
  have hqv := Ops.exact_mulI hq
  have hpos : 0 < q.val := by
    rw [hqv]
    exact mul_pos (Money.val_pos_iff.mpr lot.quantity_pos)
      (by exact_mod_cast n.contract.multiplier_pos)
  have ht := applyTrade_exact (fun p hp => hb.positions.get hp) hpos htrade
  have hget : acc.positions.get (Instrument.single shares).hk = acc.positions.get shares.hk := rfl
  have hprior : realizedOf (acc.positions.get shares.hk) =
      ((acc.positions.get (Instrument.single shares).hk).elim Money.zero
        Position.realizedPnl).val := by
    rw [hget]
    cases acc.positions.get shares.hk <;> simp [realizedOf]
  refine ⟨hb.positions.insert hshares ht.ok ht.instrument_eq _, ?_⟩
  change cash.val = flows + st.realizedPnl.val + realized.val -
    bookValue (acc.positions.insert shares.hk (.single shares) p') - owed
  have htr := ht.realized_eq
  have hterm := delivery_exact hterms
  simp only [Trade.delta, hget] at htr
  have hlot : lotsBasis [lot] = lot.quantity.val * (n.held.unit * lot.costBasis.val) := by
    simp [lotsBasis, Lot.view, hside]
  rw [bookValue_insert hb.positions hshares ht.instrument_eq, paid_cash hcash, Ops.exact_mul hpaid,
    Ops.exact_add hreal, Ops.exact_sub hd, ← hprior, htr, hb.identity, hlot]
  simp only [hqv] at *
  push_cast
  linear_combination (n.contract.multiplier : ℚ) * lot.quantity.val * hterm

theorem deliverLots_balanced {flows : ℚ} {st : AccountState} {label : String}
    {n : OptionLifecycle} {kind : EventKind} {shares : Contract} {acc s : Settled} {taken : List Lot}
    (hshares : shares.multiplier = .ok 1) (hside : Uniform n.held taken)
    (hb : SettledOk flows (n.contract.multiplier * lotsBasis taken) st acc)
    (h : taken.foldlM (deliverLot A.exact st.accountId label n kind n.held shares) acc = .ok s) :
    SettledOk flows 0 st s := by
  induction taken generalizing acc with
  | nil =>
      cases h
      simpa [lotsBasis] using hb
  | cons lot taken ih =>
      simp only [List.foldlM_cons, bind_eq_ok] at h
      obtain ⟨acc', hstep, h⟩ := h
      have hsplit : lotsBasis (lot :: taken) = lotsBasis [lot] + lotsBasis taken := by
        simp [lotsBasis]
      rw [hsplit, mul_add] at hb
      exact ih (fun l hl => hside l (List.mem_cons_of_mem _ hl))
        (deliverLot_balanced hshares (hside lot List.mem_cons_self) hb hstep) h

theorem makeEquity_multiplier {symbol : String} {c : Contract} (h : makeEquity symbol = .ok c) :
    c.multiplier = .ok 1 := by
  simp only [makeEquity, except_mapError_eq_ok, except_map_eq_ok] at h
  obtain ⟨_, -, rfl⟩ := h
  rfl

theorem settleShares_balanced {flows : ℚ} {st : AccountState} {label : String}
    {n : OptionLifecycle} {kind : EventKind} {p : Position} {s : Settled} (hb : Balanced flows st)
    (hg : st.positions.get (Contract.option n.contract).hk = some p)
    (hheld : sideOf p.quantity.val = n.held) (hle : n.quantity.val ≤ |p.quantity.val|)
    (h : settleShares A.exact st label n kind p = .ok s) : SettledOk flows 0 st s := by
  simp only [settleShares, bind_eq_ok, except_mapError_eq_ok] at h
  obtain ⟨⟨kept, taken⟩, hsplit, rem, hrem, symbol, -, shares, hshares, h⟩ := h
  have hp := hb.positions.get hg
  have hu : Uniform n.held p.openLots := hheld ▸ hp.uniform
  have hq : 0 ≤ n.quantity.val := (Money.val_pos_iff.mpr n.quantity_pos).le
  obtain ⟨hku, htu, -, hbasis⟩ := takeLots_uniform hu hq (hp.abs_quantity ▸ hle) hsplit
  obtain ⟨hok, hi, -, hlots⟩ := remainingPosition_exact hku hrem
  obtain ⟨hpos, hbook⟩ := settled_insert hb.positions hg hok hi (.single (.option n.contract))
  refine deliverLots_balanced (makeEquity_multiplier hshares) htu ⟨hpos, ?_⟩ h
  change st.cash.val = flows + st.realizedPnl.val + Money.zero.val -
    bookValue (st.positions.insert (Contract.option n.contract).hk (.single (.option n.contract)) rem) -
      n.contract.multiplier * lotsBasis taken
  rw [hbook, hlots, hb.identity, ← hbasis, Money.val_zero]
  ring

theorem onLifecycle_balanced {flows : ℚ} {st st' : AccountState} {n : OptionLifecycle}
    {kind : EventKind} (hb : Balanced flows st) (h : onLifecycle A.exact st n kind = .ok st') :
    Balanced flows st' := by
  simp only [onLifecycle, bind_eq_ok, except_mapError_eq_ok, pure_eq_ok] at h
  obtain ⟨_, -, p, hp, value, -, cashSettled, -, _, -, _, -, s, hs, pnl, hpnl, rfl⟩ := h
  obtain ⟨hg, hheld, hle⟩ := lifecyclePosition_ok hp
  have hset : SettledOk flows 0 st s := by
    split at hs
    · exact settleCash_balanced hb hg hheld hle hs
    · exact settleShares_balanced hb hg hheld hle hs
  refine ⟨hset.positions, ?_⟩
  change s.cash.val = flows + pnl.val - bookValue s.positions
  rw [hset.identity, Ops.exact_add hpnl]
  ring

end TradeEngine
