import TradeEngine.Ledger.Theorems
import TradeEngine.Sim.Theorems
import TradeEngine.Sim.Lemmas.Exact

/-!
# Combo limit fills
-/

namespace TradeEngine.Sim.Snapshot.Exact

open Sim.Snapshot

/-- A combo's limit order fills only where its model net is at the limit or through it, and then at prices that
are positive and come to the limit; the legs of the other side stay at their model prices, on the tick. -/
theorem combo_limit_fill {o : VOrder} {limit : Money} {prices filled : List ℚ} (hcombo : isCombo o = true)
    (htype : o.otype = .limit) (hlimit : o.limit = some limit) (hlen : prices.length = (legs o).length)
    (h : fillPrices o prices = .ok (some filled)) :
    ∃ scale, multiplier o = .ok scale ∧ AtOrThrough o.side (perUnit o scale prices) limit.val ∧
      filled.length = prices.length ∧ (∀ p ∈ filled, 0 < p) ∧ perUnit o scale filled = limit.val ∧
      ∀ (i : Nat) (leg : ComboLeg), (legs o)[i]? = some leg → leg.side ≠ o.side →
        filled[i]? = (prices[i]?).map quantize := by
  have hmarket : o.otype ≠ .market := by
    rw [htype]
    decide
  simp only [fillPrices, if_neg hmarket, hlimit, hcombo, if_true] at h
  exact comboPrices_spec hlen h

theorem one_unit_pos : 0 < (Sim.Sample.units 1).mantissa := by
  decide

/-- A vertical to be bought at 3. -/
def debit : VOrder :=
  { Sim.Sample.order "v" .limit .buy 1 (some (.ofNat 3)) none none one_unit_pos with instr := TradeEngine.Sample.vertical }

theorem debit_fills : fillPrices debit [47 / 10, 18 / 10 + 1 / 30000] = .ok (some [48 / 10, 18 / 10]) ∧
    ∃ scale, multiplier debit = .ok scale ∧
      AtOrThrough debit.side (perUnit debit scale [47 / 10, 18 / 10 + 1 / 30000]) 3 ∧
      perUnit debit scale [48 / 10, 18 / 10] = 3 := by
  have hfill : fillPrices debit [47 / 10, 18 / 10 + 1 / 30000] = .ok (some [48 / 10, 18 / 10]) := by decide +kernel
  obtain ⟨scale, hscale, hthrough, -, -, hnet, -⟩ := combo_limit_fill rfl rfl rfl rfl hfill
  have hthree : (Money.ofNat 3).val = 3 := by decide +kernel
  rw [hthree] at hthrough hnet
  exact ⟨hfill, scale, hscale, hthrough, hnet⟩

end TradeEngine.Sim.Snapshot.Exact
