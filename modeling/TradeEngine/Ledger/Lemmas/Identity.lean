import TradeEngine.Ledger.Lemmas.Books
import TradeEngine.Ledger.Lemmas.Keys

/-!
# The accounting identity, step by step

Cash is what flowed in, plus what was realised, less what the open lots cost. Each handler moves
all three together.
-/

namespace TradeEngine

open Lib

/-- The account's positions are well-formed and its cash is accounted for. -/
structure Balanced (flows : ℚ) (st : AccountState) : Prop where
  positions : PositionsOk st.positions
  identity : st.cash.val = flows + st.realizedPnl.val - bookValue st.positions

/-- The handler left cash, positions and realised profit alone. -/
structure SameBooks (st st' : AccountState) : Prop where
  cash : st'.cash = st.cash
  positions : st'.positions = st.positions
  realizedPnl : st'.realizedPnl = st.realizedPnl

theorem SameBooks.refl (st : AccountState) : SameBooks st st := ⟨rfl, rfl, rfl⟩

theorem SameBooks.balanced {flows : ℚ} {st st' : AccountState} (h : SameBooks st st')
    (hb : Balanced flows st) : Balanced flows st' := by
  refine ⟨h.positions ▸ hb.positions, ?_⟩
  rw [h.cash, h.realizedPnl, h.positions, hb.identity]

theorem Balanced.new (account : String) : Balanced 0 (.new account) := by
  refine ⟨PositionsOk.empty, ?_⟩
  simp [AccountState.new, bookValue]

/-! ## Handlers that touch no books -/

section Frame

variable {A : Arith} {st st' : AccountState} {kind : EventKind}

theorem recordFilled_books {o : Order} {leg : Option (Int × ComboLeg)} {f : Fill}
    (h : recordFilled A st o leg f = .ok st') : SameBooks st st' := by
  unfold recordFilled at h
  cases leg with
  | none =>
      simp only [bind_eq_ok, pure_eq_ok] at h
      obtain ⟨_, -, rfl⟩ := h
      exact ⟨rfl, rfl, rfl⟩
  | some l =>
      simp only [bind_eq_ok] at h
      obtain ⟨_, -, _, -, _, -, best, -, h⟩ := h
      cases best with
      | none => simp at h
      | some b =>
          rw [pure_eq_ok] at h
          subst h
          exact ⟨rfl, rfl, rfl⟩

theorem fillOrder_books {o : Order} {f : Fill} {total : Money}
    (h : fillOrder st o f total = .ok st') : SameBooks st st' := by
  simp only [fillOrder, bind_eq_ok, pure_eq_ok] at h
  obtain ⟨_, -, _, -, moved, -, rfl⟩ := h
  split
  · exact .refl st
  · exact ⟨rfl, rfl, rfl⟩

theorem onOrderSubmitted_books {o : Order} (h : onOrderSubmitted st o = .ok st') :
    SameBooks st st' := by
  simp only [onOrderSubmitted, bind_eq_ok, pure_eq_ok] at h
  obtain ⟨_, -, _, -, rfl⟩ := h
  exact ⟨rfl, rfl, rfl⟩

theorem onOrdersCreated_books {c : OrdersCreated} (h : onOrdersCreated st c = .ok st') :
    SameBooks st st' := by
  simp only [onOrdersCreated, bind_eq_ok, pure_eq_ok] at h
  obtain ⟨_, -, rfl⟩ := h
  exact ⟨rfl, rfl, rfl⟩

theorem onOrderUpdated_books {u : OrderUpdated} (h : onOrderUpdated st u kind = .ok st') :
    SameBooks st st' := by
  simp only [onOrderUpdated, bind_eq_ok, pure_eq_ok] at h
  obtain ⟨_, -, _, -, _, -, _, -, _, -, rfl⟩ := h
  exact ⟨rfl, rfl, rfl⟩

theorem onOrderState_books {c : OrderStateChange} {target : OrderState}
    (h : onOrderState st c kind target = .ok st') : SameBooks st st' := by
  simp only [onOrderState, bind_eq_ok, pure_eq_ok] at h
  obtain ⟨_, -, _, -, rfl⟩ := h
  exact ⟨rfl, rfl, rfl⟩

theorem onHaltCleared_books {c : VenueHaltCleared} (h : onHaltCleared st c = .ok st') :
    SameBooks st st' := by
  simp only [onHaltCleared, bind_eq_ok, pure_eq_ok] at h
  obtain ⟨_, -, rfl⟩ := h
  exact ⟨rfl, rfl, rfl⟩

theorem mirrorStep_books {step : MirrorState → R MirrorState}
    (h : mirrorStep st kind step = .ok st') : SameBooks st st' := by
  unfold mirrorStep at h
  split at h
  · cases h; exact ⟨rfl, rfl, rfl⟩
  · split at h
    · simp [fe] at h
    · cases h

end Frame

/-! ## Fills -/

variable {A : Arith}

/-- The contract a fill is on: its order's own, or the named leg's. -/
theorem comboLeg_ok {o : Order} {f : Fill} {leg : Option (Int × ComboLeg)}
    (h : comboLeg o f = .ok leg) :
    (leg = none ∧ ∃ c, o.instrument = .single c) ∨
      ∃ i l, leg = some (i, l) ∧ f.instrument = .single l.contract ∧ f.side = l.side := by
  unfold comboLeg at h
  split at h
  · cases h
    exact Or.inl ⟨rfl, _, by assumption⟩
  · simp only at h
    split at h
    · simp at h
    · split at h
      · simp at h
      · simp only [bind_eq_ok, refuseIf_eq_ok, refuseIfM_eq_ok, pure_eq_ok] at h
        obtain ⟨_, hi, _, hs, rfl⟩ := h
        refine Or.inr ⟨_, _, rfl, ?_, by simpa using hs⟩
        simpa using hi

theorem checkFill_ok {st : AccountState} {o : Order} {f : Fill} {leg : Option (Int × ComboLeg)}
    {u : Unit} (h : checkFill st o leg f = .ok u) :
    (leg = none → f.instrument = o.instrument ∧ f.side = o.side) ∧ f.fillId ∉ st.fillIds := by
  simp only [checkFill, bind_eq_ok, refuseIf_eq_ok, refuseIfM_eq_ok] at h
  obtain ⟨_, hi, _, hs, hd⟩ := h
  refine ⟨?_, by simpa using hd⟩
  rintro rfl
  refine ⟨by simpa using hi, by simpa using hs⟩

theorem fill_contract {st : AccountState} {o : Order} {f : Fill} {leg : Option (Int × ComboLeg)}
    {u : Unit} (hl : comboLeg o f = .ok leg) (hc : checkFill st o leg f = .ok u) :
    ∃ c, f.instrument = .single c := by
  rcases comboLeg_ok hl with ⟨hn, c, hc'⟩ | ⟨i, l, -, hi, -⟩
  · exact ⟨c, ((checkFill_ok hc).1 hn).1.trans hc'⟩
  · exact ⟨l.contract, hi⟩

theorem Side.gross_sign {side : Side} {gross signed : Money}
    (h : (if side = .sell then pure gross else Ops.neg A.exact gross) = .ok signed) :
    signed.val = -side.unit * gross.val := by
  split at h
  · rename_i hs
    rw [pure_eq_ok] at h
    rw [← h, hs, Side.unit]
    ring
  · have hs : side = .buy := by cases hl : side <;> simp_all
    rw [Ops.exact_neg h, hs, Side.unit]
    ring

theorem onFill_balanced {flows : ℚ} {st st' : AccountState} {f : Fill} (hb : Balanced flows st)
    (h : onFill A.exact st f = .ok st') : Balanced flows st' := by
  simp only [onFill, bind_eq_ok, pure_eq_ok] at h
  obtain ⟨o, -, leg, hleg, _, hcheck, m, hm, qp, hqp, gross, hgross, signed, hsigned, delta, hdelta,
    traded, htraded, realized, hrealized, st₁, h₁, st₂, h₂, cash, hcash, d, hd, pnl, hpnl, rfl⟩ := h
  obtain ⟨c, hc⟩ := fill_contract hleg hcheck
  rw [hc] at hm htraded h₁
  have hq : 0 < f.quantity.val := Money.val_pos_iff.mpr f.quantity_pos
  have ht := applyTrade_exact (fun p hp => hb.positions.get hp) hq htraded
  have hbooks₁ := recordFilled_books h₁
  have hbooks₂ := fillOrder_books h₂
  -- the position is written with the fee taken off its profit
  have hpos : st₂.positions =
      st.positions.insert c.hk (.single c) { traded with realizedPnl := realized } := by
    rw [hbooks₂.positions, hbooks₁.positions]
    rfl
  have hok : ({ traded with realizedPnl := realized } : Position).Ok :=
    ⟨ht.ok.quantity_eq, ht.ok.side_pos, ht.ok.empty_iff, ht.ok.avg_eq, ht.ok.avg_flat⟩
  have hprior : realizedOf (st.positions.get c.hk) =
      ((st.positions.get (Instrument.single c).hk).elim Money.zero Position.realizedPnl).val := by
    change realizedOf (st.positions.get c.hk) =
      ((st.positions.get c.hk).elim Money.zero Position.realizedPnl).val
    cases st.positions.get c.hk <;> simp [realizedOf]
  refine ⟨?_, ?_⟩
  · change PositionsOk st₂.positions
    rw [hpos]
    exact hb.positions.insert hm hok ht.instrument_eq _
  · change cash.val = flows + pnl.val - bookValue st₂.positions
    have hreal := ht.realized_eq
    have hget : st.positions.get (Instrument.single c).hk = st.positions.get c.hk := rfl
    simp only [Trade.delta, hget] at hreal
    rw [hpos, bookValue_insert hb.positions (p := { traded with realizedPnl := realized }) hm
      ht.instrument_eq, Ops.exact_add hcash, Ops.exact_sub hdelta, Side.gross_sign hsigned,
      Ops.exact_mulI hgross, Ops.exact_mul hqp, Ops.exact_add hpnl, Ops.exact_sub hd,
      Ops.exact_sub hrealized, hc, ← hprior, hreal, hbooks₂.cash, hbooks₁.cash,
      hbooks₂.realizedPnl, hbooks₁.realizedPnl]
    simp only
    rw [hb.identity]
    ring

end TradeEngine
