import TradeEngine.Ledger.Lemmas.Lots

/-!
# Positions in exact arithmetic

The representation invariant of a position, and what a trade does to its lots, its average cost and
its realised profit.
-/

namespace TradeEngine

open Lib

/-- The representation invariant: the quantity is the signed sum of the lots, every lot is on its
side, no lots means flat, and the average cost is the lots' cost per unit. -/
structure Position.Ok (p : Position) : Prop where
  quantity_eq : p.quantity.val = lotsQty p.openLots
  side_pos : ∀ l ∈ p.openLots, 0 < l.side.unit * p.quantity.val
  empty_iff : p.openLots = [] ↔ p.quantity.val = 0
  avg_eq : p.avgCost.val * |p.quantity.val| = lotsCost p.openLots
  avg_flat : p.quantity.val = 0 → p.avgCost.val = 0

/-- Every lot is on side `s`. -/
def Uniform (s : Side) (lots : List Lot) : Prop := ∀ l ∈ lots, l.side = s

/-- The side a signed quantity is held on. -/
def sideOf (q : ℚ) : Side := if 0 < q then .buy else .sell

theorem Side.unit_mul_self (s : Side) : s.unit * s.unit = 1 := by cases s <;> simp [Side.unit]

theorem Side.abs_unit (s : Side) : |s.unit| = 1 := by cases s <;> simp [Side.unit]

/-! ## Lists of lots on one side -/

/-- The units a lot list holds, unsigned. -/
def lotsTotal (lots : List Lot) : ℚ := Fifo.total (lots.map Lot.view)

theorem lotsTotal_nonneg (lots : List Lot) : 0 ≤ lotsTotal lots := (lots_positive lots).total_nonneg

theorem lotsTotal_eq_zero {lots : List Lot} : lotsTotal lots = 0 ↔ lots = [] := by
  rw [lotsTotal, (lots_positive lots).total_eq_zero, List.map_eq_nil_iff]

theorem lotsTotal_pos {lots : List Lot} {l : Lot} (h : l ∈ lots) : 0 < lotsTotal lots :=
  lt_of_le_of_ne (lotsTotal_nonneg lots) fun h0 =>
    List.ne_nil_of_mem h (lotsTotal_eq_zero.mp h0.symm)

theorem Uniform.tags {s : Side} {lots : List Lot} (h : Uniform s lots) :
    ∀ e ∈ lots.map Lot.view, e.2.1 = s := by
  intro e he
  obtain ⟨l, hl, rfl⟩ := List.mem_map.mp he
  exact h l hl

theorem Uniform.of_tags {s : Side} {lots : List Lot} (h : ∀ e ∈ lots.map Lot.view, e.2.1 = s) :
    Uniform s lots := fun _ hl => h _ (List.mem_map_of_mem hl)

theorem Uniform.lotsQty_eq {s : Side} {lots : List Lot} (h : Uniform s lots) :
    lotsQty lots = s.unit * lotsTotal lots := by
  rw [lotsTotal, Fifo.total_eq_weigh, ← Fifo.weigh_mul_left]
  exact Fifo.weigh_congr fun e he => by rw [h.tags e he, mul_one]

theorem Uniform.abs_lotsQty {s : Side} {lots : List Lot} (h : Uniform s lots) :
    |lotsQty lots| = lotsTotal lots := by
  rw [h.lotsQty_eq, abs_mul, s.abs_unit, one_mul, abs_of_nonneg (lotsTotal_nonneg lots)]

namespace Position.Ok

variable {p : Position}

/-- Lots on one side, summing to the quantity, make a well-formed position. -/
theorem of_uniform {s : Side} (hu : Uniform s p.openLots) (hq : p.quantity.val = lotsQty p.openLots)
    (ha : p.avgCost.val * |p.quantity.val| = lotsCost p.openLots)
    (hf : p.quantity.val = 0 → p.avgCost.val = 0) : p.Ok where
  quantity_eq := hq
  side_pos l hl := by
    rw [hu l hl, hq, hu.lotsQty_eq, ← mul_assoc, s.unit_mul_self, one_mul]
    exact lotsTotal_pos hl
  empty_iff := by
    rw [hq, ← abs_eq_zero, hu.abs_lotsQty, lotsTotal_eq_zero]
  avg_eq := ha
  avg_flat := hf

/-- Every lot is on the side the quantity is held on. -/
theorem uniform (h : p.Ok) : Uniform (sideOf p.quantity.val) p.openLots := by
  intro l hl
  have hpos := h.side_pos l hl
  unfold sideOf
  cases hs : l.side with
  | buy =>
      rw [hs, Side.unit, one_mul] at hpos
      rw [if_pos hpos]
  | sell =>
      rw [hs, Side.unit] at hpos
      rw [if_neg (by linarith)]

theorem abs_quantity (h : p.Ok) : |p.quantity.val| = lotsTotal p.openLots := by
  rw [h.quantity_eq, h.uniform.abs_lotsQty]

end Position.Ok

/-! ## Building positions -/

variable {A : Arith}

theorem makePosition_ok {acc : String} {i : Instrument} {q avg r : Money} {lots : List Lot}
    {p : Position} (h : makePosition A acc i q avg r lots = .ok p) : p = ⟨acc, i, q, avg, r, lots⟩ := by
  simp only [makePosition, bind_eq_ok, pure_eq_ok] at h
  obtain ⟨-, -, -, -, h⟩ := h
  exact h.symm

/-- What a position has realised and holds, and nothing where there is none. -/
def realizedOf (p : Option Position) : ℚ := p.elim 0 fun p => p.realizedPnl.val

def basisOf (p : Option Position) : ℚ := p.elim 0 fun p => lotsBasis p.openLots

theorem remainingPosition_exact {p p' : Position} {kept : List Lot} {r : Money} {s : Side}
    (hu : Uniform s kept) (h : remainingPosition A.exact p kept r = .ok p') :
    p'.Ok ∧ p'.instrument = p.instrument ∧ p'.realizedPnl = r ∧ p'.openLots = kept := by
  simp only [remainingPosition, bind_eq_ok] at h
  obtain ⟨q, hq, avg, havg, h⟩ := h
  have hqv := signedTotal_exact hq
  have hp := makePosition_ok h
  have hok : p'.Ok := by
    subst hp
    split at havg
    · rename_i hne
      rw [Money.ne_iff, Money.val_zero] at hne
      simp only [bind_eq_ok] at havg
      obtain ⟨c, hc, b, hb, havg⟩ := havg
      refine .of_uniform hu hqv ?_ fun h0 => absurd h0 hne
      rw [Ops.exact_div havg, Ops.exact_abs hb, costTotal_exact hc,
        div_mul_cancel₀ _ (abs_ne_zero.mpr hne)]
    · rename_i hne
      rw [Money.ne_iff, Money.val_zero, not_not] at hne
      rw [pure_eq_ok] at havg
      subst havg
      have hk : kept = [] := by
        rw [← lotsTotal_eq_zero, ← hu.abs_lotsQty, ← hqv, hne, abs_zero]
      refine .of_uniform hu hqv ?_ fun _ => Money.val_zero
      simp [hk, lotsCost]
  subst hp
  exact ⟨hok, rfl, rfl, rfl⟩

/-! ## Closing and splitting lots on one side -/

theorem lotsTotal_split {lots kept : List Lot} {n : ℚ} (h0 : 0 ≤ n) (hn : n ≤ lotsTotal lots)
    (hk : kept.map Lot.view = (Fifo.split (lots.map Lot.view) n).2) :
    lotsTotal kept = lotsTotal lots - n := by
  have hs := Fifo.split_total (lots.map Lot.view) n
  rw [Fifo.split_total_taken h0 hn] at hs
  rw [lotsTotal, lotsTotal, hk]
  linarith

theorem Uniform.split_kept {s : Side} {lots kept : List Lot} {n : ℚ} (hu : Uniform s lots)
    (hk : kept.map Lot.view = (Fifo.split (lots.map Lot.view) n).2) : Uniform s kept := by
  refine .of_tags ?_
  rw [hk]
  exact (Fifo.split_tags (P := fun t : Side × ℚ => t.1 = s) hu.tags n).2

theorem Uniform.split_taken {s : Side} {lots taken : List Lot} {n : ℚ} (hu : Uniform s lots)
    (ht : taken.map Lot.view = (Fifo.split (lots.map Lot.view) n).1) : Uniform s taken := by
  refine .of_tags ?_
  rw [ht]
  exact (Fifo.split_tags (P := fun t : Side × ℚ => t.1 = s) hu.tags n).1

/-- Closing `n` units of lots on one side: what is kept, and a profit of what the basis lost
against the units sold at the exit price. -/
theorem consumeLots_uniform {s : Side} {lots kept : List Lot} {q exit pnl : Money} {m : Int}
    (hu : Uniform s lots) (h0 : 0 ≤ q.val) (hn : q.val ≤ lotsTotal lots)
    (h : consumeLots A.exact lots q exit m = .ok (kept, pnl)) :
    Uniform s kept ∧ lotsTotal kept = lotsTotal lots - q.val ∧
      pnl.val = m * (lotsBasis kept - lotsBasis lots + s.unit * q.val * exit.val) := by
  obtain ⟨hk, hp⟩ := consumeLots_exact h
  refine ⟨hu.split_kept hk, lotsTotal_split h0 hn hk, ?_⟩
  have hb := Fifo.split_weigh (fun t : Side × ℚ => t.1.unit * t.2) (lots.map Lot.view) q.val
  have htags := (Fifo.split_tags (P := fun t : Side × ℚ => t.1 = s) hu.tags q.val).1
  -- per tagged amount the gain is the exit value less its own basis
  have hg : Fifo.weigh (gain exit.val) (Fifo.split (lots.map Lot.view) q.val).1 =
      s.unit * exit.val * Fifo.total (Fifo.split (lots.map Lot.view) q.val).1 -
        Fifo.weigh (fun t : Side × ℚ => t.1.unit * t.2) (Fifo.split (lots.map Lot.view) q.val).1 := by
    rw [eq_sub_iff_add_eq, ← Fifo.weigh_add, Fifo.total_eq_weigh, ← Fifo.weigh_mul_left]
    refine Fifo.weigh_congr fun e he => ?_
    rw [gain, htags e he]
    ring
  rw [hp, hg, Fifo.split_total_taken h0 hn, lotsBasis, lotsBasis, hk, ← hb]
  ring

/-- Splitting lots on one side loses none of their units or their basis. -/
theorem takeLots_uniform {s : Side} {lots kept taken : List Lot} {q : Money} (hu : Uniform s lots)
    (h0 : 0 ≤ q.val) (hn : q.val ≤ lotsTotal lots)
    (h : takeLots A.exact lots q = .ok (kept, taken)) :
    Uniform s kept ∧ Uniform s taken ∧ lotsTotal kept = lotsTotal lots - q.val ∧
      lotsBasis taken + lotsBasis kept = lotsBasis lots := by
  obtain ⟨hk, ht⟩ := takeLots_exact h
  refine ⟨hu.split_kept hk, hu.split_taken ht, lotsTotal_split h0 hn hk, ?_⟩
  rw [lotsBasis, lotsBasis, hk, ht]
  exact Fifo.split_weigh _ _ _

/-! ## Trades -/

/-- The signed units a trade moves. -/
def Trade.delta (t : Trade) : ℚ := t.side.unit * t.quantity.val

/-- What a trade leaves behind: a well-formed position of its instrument, whose realised profit
moved by what the lots' basis lost or gained beyond the units traded at the trade's price. -/
structure TradeResult (t : Trade) (prior : Option Position) (p : Position) : Prop where
  ok : p.Ok
  instrument_eq : p.instrument = t.instrument
  realized_eq : p.realizedPnl.val = realizedOf prior +
    t.multiplier * (lotsBasis p.openLots - basisOf prior - t.delta * t.price.val)

theorem Trade.lot_view {t : Trade} {q : Money} {l : Lot} (h : t.lot q = .ok l) :
    l.view = (q.val, t.side, t.price.val) := makeLot_view h

theorem openTrade_exact {acc : String} {carried delta : Money} {t : Trade} {p : Position}
    {prior : Option Position} (hr : realizedOf prior = carried.val) (hb : basisOf prior = 0)
    (hd : delta.val = t.delta) (hq : 0 < t.quantity.val)
    (h : openTrade A.exact acc carried delta t = .ok p) : TradeResult t prior p := by
  simp only [openTrade, bind_eq_ok] at h
  obtain ⟨l, hl, h⟩ := h
  have hv := Trade.lot_view hl
  have hu : Uniform t.side [l] := by
    intro x hx
    rw [List.mem_singleton] at hx
    rw [hx]
    exact congrArg (fun v => v.2.1) hv
  have habs : |delta.val| = t.quantity.val := by
    rw [hd, Trade.delta, abs_mul, t.side.abs_unit, one_mul, abs_of_pos hq]
  have hp := makePosition_ok h
  subst hp
  refine ⟨.of_uniform hu ?_ ?_ ?_, rfl, ?_⟩
  · simp [lotsQty, hv, hd, Trade.delta, mul_comm]
  · simp [lotsCost, hv, habs, mul_comm]
  · intro h0
    rw [h0, abs_zero] at habs
    exact absurd habs hq.ne
  · simp only [hr, hb, lotsBasis, List.map_cons, List.map_nil, hv, Fifo.weigh_cons, Fifo.weigh_nil,
      Trade.delta]
    ring

theorem increaseTrade_exact {acc : String} {delta : Money} {t : Trade} {p p' : Position}
    (hp : p.Ok) (hside : sideOf p.quantity.val = t.side) (hd : delta.val = t.delta)
    (h : increaseTrade A.exact acc p delta t = .ok p') : TradeResult t (some p) p' := by
  simp only [increaseTrade, bind_eq_ok] at h
  obtain ⟨nq, hnq, l, hl, b, hb, held, hheld, pq, hpq, weighted, hw, c, hc, avg, havg, h⟩ := h
  have hv := Trade.lot_view hl
  have hu : Uniform t.side (p.openLots ++ [l]) := by
    intro x hx
    rcases List.mem_append.mp hx with hx | hx
    · exact hside ▸ hp.uniform x hx
    · rw [List.mem_singleton] at hx
      rw [hx]
      exact congrArg (fun v => v.2.1) hv
  have hqty : nq.val = lotsQty (p.openLots ++ [l]) := by
    rw [Ops.exact_add hnq, hp.quantity_eq, hd]
    simp [lotsQty, hv, Trade.delta, mul_comm]
  have htotal : |nq.val| = lotsTotal (p.openLots ++ [l]) := by rw [hqty, hu.abs_lotsQty]
  have hpos : 0 < |nq.val| := htotal ▸ lotsTotal_pos (l := l) (by simp)
  have hmk := makePosition_ok h
  subst hmk
  refine ⟨.of_uniform hu hqty ?_ fun h0 => ?_, rfl, ?_⟩
  · rw [Ops.exact_div havg, Ops.exact_abs hc, div_mul_cancel₀ _ hpos.ne', Ops.exact_add hw,
      Ops.exact_mul hheld, Ops.exact_mul hpq, Ops.exact_abs hb, hp.avg_eq]
    simp [lotsCost, hv, mul_comm]
  · rw [h0, abs_zero] at hpos
    exact absurd hpos (lt_irrefl 0)
  · simp only [realizedOf, basisOf, Option.elim_some, lotsBasis, List.map_append, List.map_cons,
      List.map_nil, hv, Fifo.weigh_append, Fifo.weigh_cons, Fifo.weigh_nil, Trade.delta]
    ring

theorem Uniform.lotsBasis_of_total_zero {lots : List Lot} (h : lotsTotal lots = 0) :
    lotsBasis lots = 0 := by
  rw [lotsTotal_eq_zero.mp h]
  rfl

theorem reduceTrade_exact {acc : String} {delta : Money} {t : Trade} {p p' : Position}
    (hp : p.Ok) (hside : t.side.unit = -(sideOf p.quantity.val).unit)
    (hd : delta.val = t.delta) (hq : 0 < t.quantity.val)
    (h : reduceTrade A.exact acc p delta t = .ok p') : TradeResult t (some p) p' := by
  simp only [reduceTrade, bind_eq_ok] at h
  obtain ⟨a, ha, b, hb, ⟨kept, pnl⟩, hclose, r, hr, nq, hnq, h⟩ := h
  have hu := hp.uniform
  have hav : a.val = t.quantity.val := by
    rw [Ops.exact_abs ha, hd, Trade.delta, abs_mul, t.side.abs_unit, one_mul, abs_of_pos hq]
  have hbv : b.val = lotsTotal p.openLots := by rw [Ops.exact_abs hb, hp.abs_quantity]
  have hpq : p.quantity.val = (sideOf p.quantity.val).unit * b.val := by
    rw [hbv, ← hu.lotsQty_eq, ← hp.quantity_eq]
  have hnqv : nq.val = (sideOf p.quantity.val).unit * (b.val - a.val) := by
    rw [Ops.exact_add hnq, hd, Trade.delta, hside, hav]
    nth_rewrite 1 [hpq]
    ring
  by_cases hlt : b.val < a.val
  · -- the trade goes past the lots and flips the position into one new lot
    have hg : a.gt b = true := Money.gt_iff.mpr hlt
    have hl : b.lt a = true := Money.lt_iff.mpr hlt
    simp only [hg, hl, if_true, bind_eq_ok] at h hclose
    obtain ⟨rest, hrest, l, hlot, h⟩ := h
    obtain ⟨-, htot, hpnl⟩ := consumeLots_uniform hu (hbv ▸ lotsTotal_nonneg _) hbv.le hclose
    have hkept : lotsBasis kept = 0 :=
      Uniform.lotsBasis_of_total_zero (by rw [htot, hbv, sub_self])
    have hv := Trade.lot_view hlot
    have hrv := Ops.exact_sub hrest
    have hul : Uniform t.side [l] := by
      intro x hx
      rw [List.mem_singleton] at hx
      rw [hx]
      exact congrArg (fun v => v.2.1) hv
    have habs : |nq.val| = a.val - b.val := by
      rw [hnqv, abs_mul, Side.abs_unit, one_mul, abs_of_neg (by linarith)]; ring
    have hmk := makePosition_ok h
    subst hmk
    refine ⟨.of_uniform hul ?_ ?_ fun h0 => ?_, rfl, ?_⟩
    · simp only [lotsQty, List.map_cons, List.map_nil, hv, Fifo.weigh_cons, Fifo.weigh_nil, hnqv,
        hrv, hside]
      ring
    · simp only [lotsCost, List.map_cons, List.map_nil, hv, Fifo.weigh_cons, Fifo.weigh_nil, habs,
        hrv]
      ring
    · rw [h0, abs_zero] at habs
      linarith
    · rw [Ops.exact_add hr, hpnl, hkept]
      simp only [realizedOf, basisOf, Option.elim_some, lotsBasis, List.map_cons, List.map_nil, hv,
        Fifo.weigh_cons, Fifo.weigh_nil, hrv, Trade.delta, hside, ← hav]
      ring
  · have hg : a.gt b = false := by rw [Bool.eq_false_iff, Ne, Money.gt_iff]; exact hlt
    have hl : b.lt a = false := by rw [Bool.eq_false_iff, Ne, Money.lt_iff]; exact hlt
    simp only [hg, hl, Bool.false_eq_true, if_false] at h hclose
    obtain ⟨hku, htot, hpnl⟩ := consumeLots_uniform hu (hav ▸ hq.le)
      (hbv ▸ not_lt.mp hlt) hclose
    have hqty : nq.val = lotsQty kept := by rw [hnqv, hku.lotsQty_eq, htot, hbv]
    have hreal : r.val = realizedOf (some p) +
        t.multiplier * (lotsBasis kept - basisOf (some p) - t.delta * t.price.val) := by
      rw [Ops.exact_add hr, hpnl, Trade.delta, hside, hav]
      simp only [realizedOf, basisOf, Option.elim_some]
      ring
    split at h
    · rename_i hz
      rw [Money.eqNum_iff, Money.val_zero] at hz
      have hk : kept = [] := by
        rw [← lotsTotal_eq_zero, ← hku.abs_lotsQty, ← hqty, hz, abs_zero]
      have hmk := makePosition_ok h
      subst hmk
      refine ⟨.of_uniform hku hqty ?_ fun _ => Money.val_zero, rfl, hreal⟩
      simp [hk, lotsCost]
    · rename_i hz
      rw [Money.eqNum_iff, Money.val_zero] at hz
      simp only [bind_eq_ok] at h
      obtain ⟨c, hc, d, hd', avg, havg, h⟩ := h
      have hmk := makePosition_ok h
      subst hmk
      refine ⟨.of_uniform hku hqty ?_ fun h0 => absurd h0 hz, rfl, hreal⟩
      rw [Ops.exact_div havg, Ops.exact_abs hd', costTotal_exact hc,
        div_mul_cancel₀ _ (abs_ne_zero.mpr hz)]

/-- A trade on a well-formed position, in every branch. -/
theorem applyTrade_exact {acc : String} {prior : Option Position} {t : Trade} {p' : Position}
    (hp : ∀ p, prior = some p → p.Ok) (hq : 0 < t.quantity.val)
    (h : applyTrade A.exact acc prior t = .ok p') : TradeResult t prior p' := by
  simp only [applyTrade, bind_eq_ok] at h
  obtain ⟨delta, hdelta, h⟩ := h
  have hd : delta.val = t.delta := by
    split at hdelta
    · rename_i hs
      rw [pure_eq_ok] at hdelta
      rw [← hdelta, Trade.delta, hs, Side.unit, one_mul]
    · have hs : t.side = .sell := by cases hl : t.side <;> simp_all
      rw [Ops.exact_neg hdelta, Trade.delta, hs, Side.unit]
      ring
  cases prior with
  | none => exact openTrade_exact (by simp [realizedOf]) rfl hd hq h
  | some p =>
      have hok := hp p rfl
      simp only at h
      split at h
      · rename_i hz
        rw [Money.eqNum_iff, Money.val_zero] at hz
        have hb : basisOf (some p) = 0 := by
          simp only [basisOf, Option.elim_some, hok.empty_iff.mpr hz]
          rfl
        exact openTrade_exact rfl hb hd hq h
      · rename_i hz
        rw [Money.eqNum_iff, Money.val_zero] at hz
        have hsign : (0 < p.quantity.val ↔ 0 < delta.val) ↔ sideOf p.quantity.val = t.side := by
          rw [hd, Trade.delta, sideOf]
          cases ht : t.side with
          | buy => simp [Side.unit, hq]
          | sell => simp [Side.unit, not_lt.mpr hq.le]
        split at h
        · rename_i hs
          rw [Bool.eq_iff_iff, Money.gt_iff, Money.gt_iff, Money.val_zero] at hs
          exact increaseTrade_exact hok (hsign.mp hs) hd h
        · rename_i hs
          rw [Bool.eq_iff_iff, Money.gt_iff, Money.gt_iff, Money.val_zero] at hs
          have hne : sideOf p.quantity.val ≠ t.side := fun he => hs (hsign.mpr he)
          refine reduceTrade_exact hok ?_ hd hq h
          cases hl : sideOf p.quantity.val <;> cases ht : t.side <;> simp_all [Side.unit]

end TradeEngine
