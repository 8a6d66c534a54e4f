import TradeEngine.Sim.Broker
import TradeEngine.Lib.Text
import TradeEngine.Ledger.Lemmas.Exact
import TradeEngine.Ledger.Lemmas.Lots

/-!
# What the simulated venue conserves

A book is `Ok` when its orders, its fills and its positions tell one story. One write of an order
that moves no quantity, one new order and one fill keep it so.
-/

namespace TradeEngine.Sim

open Lib

/-- What a fill adds to the position. -/
def VFill.signed (f : VFill) : ℚ :=
  match f.side with
  | .buy => f.quantity.val
  | .sell => -f.quantity.val

namespace Book

/-- What the fills of an order add up to. -/
def filledOf (b : Book) (id : String) : ℚ :=
  ((b.fills.filter (·.orderId = id)).map (·.quantity.val)).sum

/-- What the fills of an instrument add up to, with their sides. -/
def netOf (b : Book) (hk : String) : ℚ := ((b.fills.filter (·.instr.hk = hk)).map (·.signed)).sum

def positionOf (b : Book) (hk : String) : ℚ := (((b.positions.get hk).map Pos.qty).getD Money.zero).val

/-- What the exits of an entry have filled. -/
def exited (b : Book) (parent : String) : ℚ := ((b.exits parent).map (·.filled.val)).sum

structure Ok (b : Book) : Prop where
  ids : ∀ id w, b.orders.get id = some w → w.order.id = id
  filled : ∀ id w, b.orders.get id = some w → w.filled.val = b.filledOf id
  le : ∀ id w, b.orders.get id = some w → w.filled.val ≤ w.order.quantity.val
  done : ∀ id w, b.orders.get id = some w →
    (w.state = .filled ↔ w.filled.val = w.order.quantity.val)
  owned : ∀ f ∈ b.fills, b.orders.get f.orderId ≠ none
  numbered : ∀ f ∈ b.fills, ∃ n ≤ (b.fillCounts.get f.orderId).getD 0,
    f.fillId = f.orderId ++ ":fill:" ++ toString n
  fillIds : (b.fills.map (·.fillId)).Nodup
  position : ∀ hk, b.positionOf hk = b.netOf hk
  entries : ∀ id w p, b.orders.get id = some w → w.order.parent = some p →
    ∃ e, b.orders.get p = some e ∧ e.order.instr = w.order.instr ∧ e.order.side ≠ w.order.side
  exits : ∀ p e, b.orders.get p = some e → b.exited p ≤ e.filled.val

/-! ## Sums over the book -/

theorem exited_eq_sumBy (b : Book) (p : String) :
    b.exited p = b.orders.sumBy fun w => if w.order.parent = some p then w.filled.val else 0 := by
  unfold exited exits OMap.sumBy
  induction b.orders.values with
  | nil => rfl
  | cons w l ih =>
      by_cases h : w.order.parent = some p
      · simp only [List.filter_cons, h, decide_true, if_true, List.map_cons, List.sum_cons, ih]
      · simp only [List.filter_cons, h, decide_false, Bool.false_eq_true, if_false, List.map_cons,
          List.sum_cons, zero_add, ih]

variable {b b' : Book} {id : String} {w w' : Working}

theorem requireOrder_ok (h : b.requireOrder id = .ok w) : b.orders.get id = some w := by
  unfold requireOrder at h
  split at h
  · rename_i v hv
    rw [hv, Except.ok.inj h]
  · simp at h

theorem get_setOrder (b : Book) (id id' : String) (w : Working) :
    (b.setOrder id w).orders.get id' = if id' = id then some w else b.orders.get id' :=
  OMap.get_put _ _ _ _

theorem exited_setOrder (hw : b.orders.get id = some w) (w' : Working) (p : String) :
    (b.setOrder id w').exited p = b.exited p - (if w.order.parent = some p then w.filled.val else 0) +
      (if w'.order.parent = some p then w'.filled.val else 0) := by
  rw [exited_eq_sumBy, exited_eq_sumBy]
  exact OMap.sumBy_insert_of_get _ _ _ hw

theorem exited_setOrder_new (hw : b.orders.get id = none) (w' : Working) (p : String) :
    (b.setOrder id w').exited p =
      b.exited p + (if w'.order.parent = some p then w'.filled.val else 0) := by
  rw [exited_eq_sumBy, exited_eq_sumBy]
  exact OMap.sumBy_insert_of_none _ _ _ hw

theorem filledOf_append (b : Book) (f : VFill) (id : String) :
    { b with fills := b.fills ++ [f] }.filledOf id =
      b.filledOf id + if f.orderId = id then f.quantity.val else 0 := by
  unfold filledOf
  by_cases h : f.orderId = id <;> simp [h]

theorem netOf_append (b : Book) (f : VFill) (hk : String) :
    { b with fills := b.fills ++ [f] }.netOf hk =
      b.netOf hk + if f.instr.hk = hk then f.signed else 0 := by
  unfold netOf
  by_cases h : f.instr.hk = hk <;> simp [h]

/-! ## One order written back -/

/-- The same order, with nothing filled in between: other terms, another state. -/
structure Amends (w w' : Working) : Prop where
  id : w'.order.id = w.order.id
  instr : w'.order.instr = w.order.instr
  side : w'.order.side = w.order.side
  parent : w'.order.parent = w.order.parent
  filled : w'.filled = w.filled
  le : w.filled.val ≤ w'.order.quantity.val
  done : w'.state = .filled ↔ w'.filled.val = w'.order.quantity.val

theorem Ok.amend (hok : b.Ok) (hw : b.orders.get id = some w) (h : Amends w w') :
    (b.setOrder id w').Ok where
  ids id' v hv := by
    rw [get_setOrder] at hv
    split at hv
    · rename_i heq
      cases hv
      rw [h.id, heq, hok.ids id w hw]
    · exact hok.ids id' v hv
  filled id' v hv := by
    rw [get_setOrder] at hv
    split at hv
    · rename_i heq
      cases hv
      rw [h.filled, heq]
      exact hok.filled id w hw
    · exact hok.filled id' v hv
  le id' v hv := by
    rw [get_setOrder] at hv
    split at hv
    · cases hv
      rw [h.filled]
      exact h.le
    · exact hok.le id' v hv
  done id' v hv := by
    rw [get_setOrder] at hv
    split at hv
    · cases hv
      exact h.done
    · exact hok.done id' v hv
  owned f hf := by
    rw [get_setOrder]
    split
    · simp
    · exact hok.owned f hf
  numbered := hok.numbered
  fillIds := hok.fillIds
  position := hok.position
  entries id' v p hv hp := by
    have hchild : ∃ u, b.orders.get id' = some u ∧ u.order.parent = some p ∧
        u.order.instr = v.order.instr ∧ u.order.side = v.order.side := by
      rw [get_setOrder] at hv
      split at hv
      · rename_i heq
        cases hv
        exact ⟨w, heq ▸ hw, h.parent ▸ hp, h.instr.symm, h.side.symm⟩
      · exact ⟨v, hv, hp, rfl, rfl⟩
    obtain ⟨u, hu, hup, hui, hus⟩ := hchild
    obtain ⟨e, he, hei, hes⟩ := hok.entries id' u p hu hup
    rw [get_setOrder]
    by_cases heq : p = id
    · rw [heq, hw] at he
      cases he
      exact ⟨w', if_pos heq, by rw [h.instr, hei, hui], by rw [h.side, ← hus]; exact hes⟩
    · exact ⟨e, by rw [if_neg heq, he], hei.trans hui, hus ▸ hes⟩
  exits p e he := by
    have hsame : (b.setOrder id w').exited p = b.exited p := by
      rw [exited_setOrder hw, h.parent, h.filled]
      ring
    rw [hsame]
    rw [get_setOrder] at he
    split at he
    · rename_i heq
      cases he
      rw [h.filled, heq]
      exact hok.exits id w hw
    · exact hok.exits p e he

theorem Ok.add (hok : b.Ok) (hnew : b.orders.get w.order.id = none) (hfilled : w.filled = .zero)
    (hstate : w.state ≠ .filled)
    (hentry : ∀ p, w.order.parent = some p → ∃ e, b.orders.get p = some e ∧
      e.order.instr = w.order.instr ∧ e.order.side ≠ w.order.side) :
    (b.setOrder w.order.id w).Ok where
  ids id' v hv := by
    rw [get_setOrder] at hv
    split at hv
    · rename_i heq
      cases hv
      exact heq.symm
    · exact hok.ids id' v hv
  filled id' v hv := by
    rw [get_setOrder] at hv
    split at hv
    · rename_i heq
      cases hv
      -- no fill names an order the book does not hold
      have hnone : b.fills.filter (·.orderId = w.order.id) = [] := by
        refine List.filter_eq_nil_iff.mpr fun f hf hid => hok.owned f hf ?_
        rw [of_decide_eq_true hid, hnew]
      have hzero : b.filledOf w.order.id = 0 := by simp [filledOf, hnone]
      rw [hfilled, heq, Money.val_zero]
      exact hzero.symm
    · exact hok.filled id' v hv
  le id' v hv := by
    rw [get_setOrder] at hv
    split at hv
    · cases hv
      rw [hfilled, Money.val_zero]
      exact (Money.val_pos_iff.mpr w.order.quantity_pos).le
    · exact hok.le id' v hv
  done id' v hv := by
    rw [get_setOrder] at hv
    split at hv
    · cases hv
      have hpos := Money.val_pos_iff.mpr w.order.quantity_pos
      rw [hfilled, Money.val_zero]
      exact iff_of_false hstate hpos.ne
    · exact hok.done id' v hv
  owned f hf := by
    rw [get_setOrder]
    split
    · simp
    · exact hok.owned f hf
  numbered := hok.numbered
  fillIds := hok.fillIds
  position := hok.position
  entries id' v p hv hp := by
    have hold : ∃ e, b.orders.get p = some e ∧ e.order.instr = v.order.instr ∧
        e.order.side ≠ v.order.side := by
      rw [get_setOrder] at hv
      split at hv
      · cases hv
        exact hentry p hp
      · exact hok.entries id' v p hv hp
    obtain ⟨e, he, hrest⟩ := hold
    refine ⟨e, ?_, hrest⟩
    rw [get_setOrder, if_neg ?_]
    · exact he
    · rintro rfl
      rw [hnew] at he
      cases he
  exits p e he := by
    rw [exited_setOrder_new hnew, hfilled, Money.val_zero, ite_self, add_zero]
    rw [get_setOrder] at he
    split at he
    · rename_i heq
      cases he
      -- nor does an order name an entry the book does not hold
      have hnone : b.exits p = [] := by
        refine List.filter_eq_nil_iff.mpr fun v hv hvp => ?_
        obtain ⟨e, he, rfl⟩ := List.mem_map.mp hv
        obtain ⟨x, hx, -⟩ := hok.entries _ _ p (OMap.get_of_mem he) (of_decide_eq_true hvp)
        rw [heq, hnew] at hx
        cases hx
      simp [exited, hnone, hfilled]
    · exact hok.exits p e he

end Book

end TradeEngine.Sim
