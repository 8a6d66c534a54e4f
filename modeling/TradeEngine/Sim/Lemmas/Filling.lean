import TradeEngine.Sim.Session
import TradeEngine.Sim.Lemmas.Calls

/-!
# What a fill leaves behind

A fill is numbered, booked, put on its order and put on the position. It can be refused between any
two of these; what each outcome leaves is one relation between the book before and after.
-/

namespace TradeEngine.Sim

open Lib Lib.Prog

variable {A : Arith} {cal : Calendars} {b b' : Book} {id : String} {w w' : Working} {price quantity : Money}
  {at' : Ts}

/-! ## Limits -/

/-- A fill of a limit order at this price keeps to its limit. -/
def VOrder.Protects (o : VOrder) (price : Money) : Prop :=
  (o.otype = .limit ∨ o.otype = .stopLimit) → ∀ limit, o.limit = some limit →
    (o.side = .buy → price.val ≤ limit.val) ∧ (o.side = .sell → limit.val ≤ price.val)

theorem dmin_le_right (a b : Money) : (dmin a b).val ≤ b.val := by
  rw [dmin_val]
  exact min_le_right _ _

theorem le_dmax_right (a b : Money) : b.val ≤ (dmax a b).val := by
  rw [dmax_val]
  exact le_max_right _ _

theorem limitBase_protects {side : Side} {limit base : Money} {bar : Bar}
    (h : limitBase side limit bar = some base) :
    (side = .buy → base.val ≤ limit.val) ∧ (side = .sell → limit.val ≤ base.val) := by
  cases side with
  | buy =>
      simp only [limitBase, Option.ite_none_left_eq_some, Option.some.injEq] at h
      exact ⟨fun _ => h.2 ▸ dmin_le_right _ _, fun hs => nomatch hs⟩
  | sell =>
      simp only [limitBase, Option.ite_none_left_eq_some, Option.some.injEq] at h
      exact ⟨(fun hs => nomatch hs), fun _ => h.2 ▸ le_dmax_right _ _⟩

/-- A stop-limit triggered inside the bar takes its stop only where the limit allows it. -/
theorem stopLimitBase_protects {bar : Bar} {t : Bool} {base limit : Money} (hl : w.order.limit = some limit)
    (h : stopLimitBase w bar = .ok (t, some base)) :
    (w.order.side = .buy → base.val ≤ limit.val) ∧ (w.order.side = .sell → limit.val ≤ base.val) := by
  unfold stopLimitBase at h
  rw [hl] at h
  cases hstop : w.order.stop with
  | none => simp [hstop, err] at h
  | some stop =>
      simp only [hstop] at h
      split at h
      · simp at h
      · split at h
        · simp only [pure_eq_ok, Prod.mk.injEq] at h
          obtain ⟨-, h⟩ := h
          rw [Option.ite_none_left_eq_some] at h
          obtain ⟨hbeyond, hbase⟩ := h
          cases hbase
          cases hs : w.order.side with
          | buy => simpa [hs] using hbeyond
          | sell => simpa [hs] using hbeyond
        · simp only [pure_eq_ok, Prod.mk.injEq] at h
          exact limitBase_protects h.2

/-- Slippage moves a price no further than the limit. -/
theorem slippedPrice_protects {bps base : Money} {ticks : Nat} {o : VOrder}
    (h : slippedPrice bps ticks base o = .ok price) (hbase : o.Protects base) : o.Protects price := by
  intro htype limit hlimit
  have hlimits : (o.otype == .limit || o.otype == .stopLimit) = true := by simpa using htype
  unfold slippedPrice at h
  rw [hlimits, hlimit] at h
  split at h
  · simp only [if_true, pure_eq_ok] at h
    exact h ▸ hbase htype limit hlimit
  · obtain ⟨p, -, h⟩ := bind_eq_ok.mp h
    simp only [pure_eq_ok] at h
    subst h
    constructor
    · intro hs
      rw [if_pos hs]
      exact dmin_le_right _ _
    · intro hs
      rw [if_neg (by rw [hs]; decide)]
      exact le_dmax_right _ _

/-! ## The stages of a fill -/

/-- The record of an order that has filled so much. -/
def Working.take (w : Working) (total : Money) (at' : Ts) : Working :=
  { w with
    filled := total
    state := if total.eqNum w.order.quantity then .filled else .partiallyFilled
    updatedAt := at' }

/-- What a fill of an order has done when it ends: the fill it booked, if it came that far. -/
structure Filling (A : Arith) (id : String) (w : Working) (price : Money) (at' : Ts) (made : Option VFill)
    (b b' : Book) : Prop where
  rest : b' = { b with
    orders := b'.orders, fills := b'.fills, fillCounts := b'.fillCounts, positions := b'.positions }
  counts : ∀ id', id' ≠ id → b'.fillCounts.get id' = b.fillCounts.get id'
  fills : b'.fills = b.fills ++ made.toList
  facts : ∀ f, made = some f → f.orderId = w.order.id ∧ f.instr = w.order.instr ∧ f.side = w.order.side ∧
    f.price = price ∧ f.filledAt = at'
  order : b'.orders = b.orders ∨ ∃ f total, made = some f ∧ Ops.add A w.filled f.quantity = .ok total ∧
    b'.orders = b.orders.put id (w.take total at')
  position : ∀ hk, made = none ∨ hk ≠ w.order.instr.hk → b'.positions.get hk = b.positions.get hk

theorem makeVFill_facts {fillId : String} {o : VOrder} {t : Ts} {f : VFill}
    (h : makeVFill fillId o quantity price t = .ok f) : f.quantity = quantity ∧
    f.orderId = o.id ∧ f.instr = o.instr ∧ f.side = o.side ∧ f.price = price ∧ f.filledAt = t := by
  unfold makeVFill at h
  split at h
  · simp [err] at h
  · split at h
    · simp [err] at h
    · cases h
      exact ⟨rfl, rfl, rfl, rfl, rfl, rfl⟩

theorem updatePosition_leaves {f : VFill} (h : b.updatePosition A f = .ok b') :
    ∃ p, b' = { b with positions := b.positions.insert f.instr.hk f.instr p } := by
  simp only [Book.updatePosition, bind_eq_ok, pure_eq_ok] at h
  obtain ⟨_, -, _, -, _, -, rfl⟩ := h
  exact ⟨_, rfl⟩

theorem Filling.numbered (b : Book) (id : String) (n : Nat) :
    Filling A id w price at' none b { b with fillCounts := b.fillCounts.put id n } where
  rest := rfl
  counts _ hne := OMap.get_put_ne _ _ hne
  fills := (List.append_nil _).symm
  facts _ hg := nomatch hg
  order := Or.inl rfl
  position _ _ := rfl

theorem Filling.booked {f : VFill} (h : Filling A id w price at' none b b')
    (hfacts : f.orderId = w.order.id ∧ f.instr = w.order.instr ∧ f.side = w.order.side ∧
      f.price = price ∧ f.filledAt = at') :
    Filling A id w price at' (some f) b { b' with fills := b'.fills ++ [f] } where
  rest := by rw [h.rest]
  counts := h.counts
  fills := by rw [h.fills]; simp
  facts _ hg := Option.some.inj hg ▸ hfacts
  order := by
    rcases h.order with ho | ⟨_, _, hnone, -⟩
    · exact Or.inl ho
    · cases hnone
  position hk _ := h.position hk (Or.inl rfl)

theorem Filling.ordered {f : VFill} {total : Money} (h : Filling A id w price at' (some f) b b')
    (hsame : b'.orders = b.orders) (htotal : Ops.add A w.filled f.quantity = .ok total) :
    Filling A id w price at' (some f) b (b'.setOrder id (w.take total at')) where
  rest := by rw [h.rest]; rfl
  counts := h.counts
  fills := h.fills
  facts := h.facts
  order := Or.inr ⟨f, total, rfl, htotal, by rw [Book.setOrder, hsame]⟩
  position := h.position

theorem Filling.positioned {f : VFill} {b'' : Book} (hpos : b'.updatePosition A f = .ok b'')
    (h : Filling A id w price at' (some f) b b') : Filling A id w price at' (some f) b b'' := by
  obtain ⟨p, rfl⟩ := updatePosition_leaves hpos
  refine ⟨by rw [h.rest], h.counts, h.fills, h.facts, h.order, ?_⟩
  intro hk hne
  have hother : hk ≠ f.instr.hk := by
    rw [(h.facts f rfl).2.1]
    exact hne.resolve_left (Option.some_ne_none f)
  exact (OMap.get_insert_ne _ _ _ hother).trans (h.position hk hne)

theorem fillOrder_leaves (A : Arith) (w : Working) (id : String) (quantity price : Money) (at' : Ts)
    (b : Book) :
    Post (fun _ b' => ∃ f, Filling A id w price at' (some f) b b')
      (fun _ b' => ∃ made, Filling A id w price at' made b b') (Act.fillOrder A w id quantity price at' b) := by
  unfold Act.fillOrder
  rw [post_bind]
  apply Post.get
  rw [post_bind]
  apply Post.modify
  rw [post_bind]
  refine Post.lift (fun f hf => ?_) fun _ _ => ⟨none, .numbered b id _⟩
  obtain ⟨rfl, hfacts⟩ := makeVFill_facts hf
  have hbooked := (Filling.numbered (A := A) b id ((b.fillCounts.get id).getD 0 + 1)).booked hfacts
  rw [post_bind]
  apply Post.modify
  rw [post_bind]
  refine Post.lift (fun filled htotal => ?_) fun _ _ => ⟨some f, hbooked⟩
  rw [post_bind]
  apply Post.modify
  rw [post_bind]
  refine Post.change (fun _ hpos => ?_) fun _ _ => ⟨some f, hbooked.ordered rfl htotal⟩
  exact ⟨f, .positioned hpos (hbooked.ordered rfl htotal)⟩

/-- Nothing of the order is left that its bracket and the position allow. -/
def NothingToTake (A : Arith) (b : Book) (w : Working) : Prop :=
  w.order.parent.isSome = true ∧ ∃ q, b.fillQuantity A w = .ok q ∧ q.isZero = true

theorem fill_leaves (A : Arith) (id : String) (price : Money) (at' : Ts) (b : Book) :
    Post
      (fun r b' => ∃ w, b.orders.get id = some w ∧
        (b' = b ∧ r = none ∧ (working w.state = false ∨ NothingToTake A b w) ∨
          working w.state = true ∧ ∃ f, Filling A id w price at' (some f) b b'))
      (fun _ b' => b' = b ∨ ∃ w made, b.orders.get id = some w ∧ working w.state = true ∧
        Filling A id w price at' made b b')
      (Act.fill A id price at' b) := by
  unfold Act.fill
  rw [post_bind]
  refine Post.lift (fun w hw => ?_) fun _ _ => Or.inl rfl
  have hget := Book.requireOrder_ok hw
  cases hstate : working w.state with
  | false =>
      simp only [Bool.not_false, if_true]
      exact ⟨w, hget, Or.inl ⟨rfl, rfl, Or.inl hstate⟩⟩
  | true =>
      simp only [Bool.not_true, Bool.false_eq_true, if_false]
      rw [post_bind]
      refine Post.lift (fun q hq => ?_) fun _ _ => Or.inl rfl
      split
      · next hnothing =>
          rw [Bool.and_eq_true] at hnothing
          exact ⟨w, hget, Or.inl ⟨rfl, rfl, Or.inr ⟨hnothing.1, q, hq, hnothing.2⟩⟩⟩
      · rw [map_eq_pure_bind, post_bind]
        refine (fillOrder_leaves A w id q price at' b).weaken ?_ ?_
        · rintro n b' ⟨f, hf⟩
          exact ⟨w, hget, Or.inr ⟨hstate, f, hf⟩⟩
        · rintro e b' ⟨made, hmade⟩
          exact Or.inr ⟨w, made, hget, hstate, hmade⟩

end TradeEngine.Sim
