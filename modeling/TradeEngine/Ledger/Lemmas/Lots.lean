import TradeEngine.Lib.Fifo
import TradeEngine.Ledger.Fold

/-!
# Lots in exact arithmetic

A lot list is a queue of amounts tagged with side and cost; both lot loops of the trade path are
the split of that queue.
-/

namespace TradeEngine

open Lib

/-! ## Exact operations -/

namespace Ops

variable {A : Arith} {a b r : Money}

theorem exact_add (h : add A.exact a b = .ok r) : r.val = a.val + b.val :=
  Arith.exact_add (except_mapError_eq_ok.mp h)

theorem exact_sub (h : sub A.exact a b = .ok r) : r.val = a.val - b.val :=
  Arith.exact_sub (except_mapError_eq_ok.mp h)

theorem exact_mul (h : mul A.exact a b = .ok r) : r.val = a.val * b.val :=
  Arith.exact_mul (except_mapError_eq_ok.mp h)

theorem exact_div (h : div A.exact a b = .ok r) : r.val = a.val / b.val :=
  Arith.exact_div (except_mapError_eq_ok.mp h)

theorem exact_neg (h : neg A.exact a = .ok r) : r.val = -a.val :=
  Arith.exact_neg (except_mapError_eq_ok.mp h)

theorem exact_abs (h : abs A.exact a = .ok r) : r.val = |a.val| :=
  Arith.exact_abs (except_mapError_eq_ok.mp h)

theorem exact_mulI {n : Int} (h : mulI A.exact a n = .ok r) : r.val = a.val * n :=
  Arith.exact_mulI (except_mapError_eq_ok.mp h)

theorem exact_divI {n : Int} (h : divI A.exact a n = .ok r) : r.val = a.val / n :=
  Arith.exact_divI (except_mapError_eq_ok.mp h)

end Ops

/-! ## Lots as a queue -/

/-- `+1` for a buy, `-1` for a sell. -/
def Side.unit : Side → ℚ
  | .buy => 1
  | .sell => -1

/-- The amount of a lot, tagged with its side and its cost. -/
def Lot.view (l : Lot) : ℚ × Side × ℚ := (l.quantity.val, l.side, l.costBasis.val)

/-- The signed units a lot list holds. -/
def lotsQty (lots : List Lot) : ℚ := Fifo.weigh (fun t => t.1.unit) (lots.map Lot.view)

/-- What the units of a lot list cost, unsigned. -/
def lotsCost (lots : List Lot) : ℚ := Fifo.weigh (fun t => t.2) (lots.map Lot.view)

/-- What the units of a lot list cost, signed: positive for units bought. -/
def lotsBasis (lots : List Lot) : ℚ := Fifo.weigh (fun t => t.1.unit * t.2) (lots.map Lot.view)

theorem lots_positive (lots : List Lot) : Fifo.Positive (lots.map Lot.view) := by
  intro e he
  obtain ⟨l, -, rfl⟩ := List.mem_map.mp he
  exact Money.val_pos_iff.mpr l.quantity_pos

theorem makeLot_ok {lotId : String} {q c : Money} {d : DateTime} {s : Side} {l : Lot}
    (h : makeLot lotId q c d s = .ok l) :
    l.lotId = lotId ∧ l.quantity = q ∧ l.costBasis = c ∧ l.side = s := by
  unfold makeLot at h
  split_ifs at h
  · simp at h
  · simp at h
  · simp at h
  · cases h; exact ⟨rfl, rfl, rfl, rfl⟩

theorem makeLot_view {lotId : String} {q c : Money} {d : DateTime} {s : Side} {l : Lot}
    (h : makeLot lotId q c d s = .ok l) : l.view = (q.val, s, c.val) := by
  obtain ⟨-, rfl, rfl, rfl⟩ := makeLot_ok h
  rfl

theorem lotWith_view {lot l : Lot} {q : Money} (h : lotWith lot q = .ok l) :
    l.view = (q.val, lot.view.2) := makeLot_view h

variable {A : Arith}

theorem signedLot_exact {l : Lot} {r : Money} (h : signedLot A.exact l = .ok r) :
    r.val = l.quantity.val * l.side.unit := by
  unfold signedLot at h
  split at h
  · rename_i hs
    cases h
    simp [hs, Side.unit]
  · have hs : l.side = .sell := by cases hl : l.side <;> simp_all
    rw [Ops.exact_neg h, hs, Side.unit]
    ring

private theorem foldlM_weigh {f : Money → Lot → R Money} {w : Side × ℚ → ℚ}
    (hf : ∀ a l r, f a l = .ok r → r.val = a.val + l.quantity.val * w l.view.2)
    {lots : List Lot} {a r : Money} (h : lots.foldlM f a = .ok r) :
    r.val = a.val + Fifo.weigh w (lots.map Lot.view) := by
  induction lots generalizing a with
  | nil => cases h; simp
  | cons l lots ih =>
      simp only [List.foldlM_cons, bind_eq_ok] at h
      obtain ⟨b, hb, h⟩ := h
      rw [ih h, hf a l b hb, List.map_cons, Fifo.weigh_cons]
      simp only [Lot.view]
      ring

theorem signedTotal_exact {lots : List Lot} {r : Money} (h : signedTotal A.exact lots = .ok r) :
    r.val = lotsQty lots := by
  refine (foldlM_weigh ?_ h).trans (by rw [Money.val_zero, zero_add, lotsQty])
  intro a l r hr
  obtain ⟨x, hx, hr⟩ := bind_eq_ok.mp hr
  rw [Ops.exact_add hr, signedLot_exact hx]
  rfl

theorem costTotal_exact {lots : List Lot} {r : Money} (h : costTotal A.exact lots = .ok r) :
    r.val = lotsCost lots := by
  refine (foldlM_weigh ?_ h).trans (by rw [Money.val_zero, zero_add, lotsCost])
  intro a l r hr
  obtain ⟨x, hx, hr⟩ := bind_eq_ok.mp hr
  rw [Ops.exact_add hr, Ops.exact_mul hx, Lot.view]
  ring

theorem closePnl_exact {l : Lot} {closed exit r : Money} {m : Int}
    (h : closePnl A.exact l closed exit m = .ok r) :
    r.val = closed.val * (l.side.unit * (exit.val - l.costBasis.val)) * m := by
  simp only [closePnl, bind_eq_ok] at h
  obtain ⟨per, hper, x, hx, h⟩ := h
  rw [Ops.exact_mulI h, Ops.exact_mul hx]
  split at hper
  · rename_i hs
    rw [Ops.exact_sub hper, hs, Side.unit]
    ring
  · have hs : l.side = .sell := by cases hl : l.side <;> simp_all
    rw [Ops.exact_sub hper, hs, Side.unit]
    ring

/-! ## The two loops are the split -/

/-- Profit per unit of closing a tagged amount at a price. -/
def gain (exit : ℚ) (t : Side × ℚ) : ℚ := t.1.unit * (exit - t.2)

theorem consumeLoop_exact {exit : Money} {m : Int} {lots kept : List Lot}
    {rem realized rem' realized' : Money}
    (h : consumeLoop A.exact exit m lots rem realized = .ok (kept, rem', realized')) :
    kept.map Lot.view = (Fifo.split (lots.map Lot.view) rem.val).2 ∧
      realized'.val = realized.val +
        Fifo.weigh (gain exit.val) (Fifo.split (lots.map Lot.view) rem.val).1 * m := by
  induction lots generalizing rem realized kept with
  | nil =>
      cases h
      simp [Fifo.split]
  | cons l lots ih =>
      simp only [consumeLoop] at h
      simp only [List.map_cons]
      split at h
      · rename_i hz
        rw [Money.le_iff, Money.val_zero] at hz
        simp only [bind_eq_ok, pure_eq_ok, Prod.mk.injEq, Prod.exists] at h
        obtain ⟨k, r, x, hrec, rfl, rfl, rfl⟩ := h
        obtain ⟨hk, hr⟩ := ih hrec
        rw [Fifo.split_nonpos _ hz] at hk hr ⊢
        exact ⟨by simp [hk], by simpa using hr⟩
      · rename_i hz
        rw [Money.le_iff, Money.val_zero] at hz
        split at h
        · rename_i hq
          rw [Money.le_iff] at hq
          simp only [bind_eq_ok] at h
          obtain ⟨left, hleft, pnl, hpnl, sum, hsum, hrec⟩ := h
          obtain ⟨hk, hr⟩ := ih hrec
          rw [Ops.exact_sub hleft] at hk hr
          simp only [Fifo.split, Lot.view, hz, hq, if_false, if_true, Fifo.weigh_cons] at hk hr ⊢
          refine ⟨hk, ?_⟩
          rw [hr, Ops.exact_add hsum, closePnl_exact hpnl, gain]
          ring
        · rename_i hq
          rw [Money.le_iff] at hq
          simp only [bind_eq_ok, pure_eq_ok, Prod.mk.injEq, Prod.exists] at h
          obtain ⟨q, hsub, part, hpart, pnl, hpnl, sum, hsum, k, r, x, hrec, rfl, rfl, rfl⟩ := h
          obtain ⟨hk, hr⟩ := ih hrec
          rw [Money.val_zero, Fifo.split_nonpos _ le_rfl] at hk hr
          simp only [Fifo.split, Lot.view, hz, hq, if_false, Fifo.weigh_cons, Fifo.weigh_nil]
          refine ⟨?_, ?_⟩
          · simp only [List.map_cons, hk, lotWith_view hpart, Ops.exact_sub hsub]
            rfl
          · rw [hr, Ops.exact_add hsum, closePnl_exact hpnl, gain]
            simp

theorem consumeLots_exact {lots kept : List Lot} {q exit pnl : Money} {m : Int}
    (h : consumeLots A.exact lots q exit m = .ok (kept, pnl)) :
    kept.map Lot.view = (Fifo.split (lots.map Lot.view) q.val).2 ∧
      pnl.val = Fifo.weigh (gain exit.val) (Fifo.split (lots.map Lot.view) q.val).1 * m := by
  simp only [consumeLots, bind_eq_ok, Prod.exists, pure_eq_ok, Prod.mk.injEq] at h
  obtain ⟨k, r, x, hloop, -, -, rfl, rfl⟩ := h
  simpa using consumeLoop_exact hloop

theorem takeLoop_exact {lots kept taken : List Lot} {rem rem' : Money}
    (h : takeLoop A.exact lots rem = .ok (kept, taken, rem')) :
    kept.map Lot.view = (Fifo.split (lots.map Lot.view) rem.val).2 ∧
      taken.map Lot.view = (Fifo.split (lots.map Lot.view) rem.val).1 := by
  induction lots generalizing rem kept taken with
  | nil =>
      cases h
      simp [Fifo.split]
  | cons l lots ih =>
      simp only [takeLoop] at h
      simp only [List.map_cons]
      split at h
      · rename_i hz
        rw [Money.le_iff, Money.val_zero] at hz
        simp only [bind_eq_ok, pure_eq_ok, Prod.mk.injEq, Prod.exists] at h
        obtain ⟨k, t, r, hrec, rfl, rfl, rfl⟩ := h
        obtain ⟨hk, ht⟩ := ih hrec
        rw [Fifo.split_nonpos _ hz] at hk ht ⊢
        exact ⟨by simp [hk], ht⟩
      · rename_i hz
        rw [Money.le_iff, Money.val_zero] at hz
        simp only [bind_eq_ok, pure_eq_ok, Prod.mk.injEq, Prod.exists] at h
        obtain ⟨tk, htk, keep, hkeep, left, hleft, k, t, r, hrec, rfl, rfl, rfl⟩ := h
        obtain ⟨hk, ht⟩ := ih hrec
        rw [Ops.exact_sub hleft] at hk ht
        by_cases hlt : rem.val < l.quantity.val
        · -- the lot is cut: its rest is kept and nothing remains to take
          have hl : rem.lt l.quantity = true := Money.lt_iff.mpr hlt
          simp only [hl, if_true] at htk hkeep hk ht
          simp only [map_eq_ok, bind_eq_ok] at hkeep
          obtain ⟨rest, ⟨q, hq, hrest⟩, rfl⟩ := hkeep
          rw [sub_self, Fifo.split_nonpos _ le_rfl] at hk ht
          simp only [Fifo.split, Lot.view, hz, not_le.mpr hlt, if_false]
          refine ⟨?_, ?_⟩
          · simp only [List.cons_append, List.nil_append, List.map_cons, hk, lotWith_view hrest,
              Ops.exact_sub hq]
            rfl
          · simp only [List.map_cons, ht, lotWith_view htk]
            rfl
        · have hl : rem.lt l.quantity = false := by
            rw [Bool.eq_false_iff, Ne, Money.lt_iff]; exact hlt
          have hs : l.quantity.lt l.quantity = false := by
            rw [Bool.eq_false_iff, Ne, Money.lt_iff]; exact lt_irrefl _
          simp only [hl, hs, Bool.false_eq_true, if_false, pure_eq_ok] at htk hkeep hk ht
          subst hkeep
          have hv : tk.view = l.view := lotWith_view htk
          rw [List.map_cons, hv, ht, List.nil_append, hk]
          simp only [Fifo.split, Lot.view, hz, not_lt.mp hlt, if_false, if_true, and_self]

theorem takeLots_exact {lots kept taken : List Lot} {q : Money}
    (h : takeLots A.exact lots q = .ok (kept, taken)) :
    kept.map Lot.view = (Fifo.split (lots.map Lot.view) q.val).2 ∧
      taken.map Lot.view = (Fifo.split (lots.map Lot.view) q.val).1 := by
  simp only [takeLots, bind_eq_ok, Prod.exists, pure_eq_ok, Prod.mk.injEq] at h
  obtain ⟨k, t, r, hloop, -, -, rfl, rfl⟩ := h
  exact takeLoop_exact hloop

end TradeEngine
