import TradeEngine.Ledger.Lemmas.Keys
import TradeEngine.Ledger.Lemmas.Run

/-!
# Orders and their fills

What every stored order has filled, against what it asks for. A second `OrderSubmitted` replaces a
stored order as it is sent, so the bound needs a condition on it.
-/

namespace TradeEngine

open Lib

def Order.IsSingle (o : Order) : Prop := ∃ c, o.instrument = .single c

/-- The recorded fills of one order. -/
def fillsOf (fills : List Fill) (id : String) : List Fill := fills.filter (·.orderId = id)

/-- One order against its fills: no more filled than ordered; and for an order on one contract,
every fill is on it and on its side, and the filled quantity is their sum. -/
structure OrderFilled (o : Order) (filled : ℚ) (fills : List Fill) : Prop where
  filled_le : filled ≤ o.quantity.val
  on_order : o.IsSingle → ∀ f ∈ fills, f.instrument = o.instrument ∧ f.side = o.side
  sum_eq : o.IsSingle → (fills.map (·.quantity.val)).sum = filled

/-- Every stored order against its fills; fills are of stored orders only. -/
structure OrdersOk (orders : OMap String Order) (filled : String → ℚ) (fills : List Fill) : Prop where
  stored : ∀ id o, orders.get id = some o → OrderFilled o (filled id) (fillsOf fills id)
  unknown : ∀ id, orders.get id = none → fillsOf fills id = []
  unfilled : ∀ id, fillsOf fills id = [] → filled id = 0

def AccountState.filledVal (st : AccountState) (id : String) : ℚ := (st.filled id).val

def AccountState.OrdersOk (st : AccountState) : Prop :=
  TradeEngine.OrdersOk st.orders st.filledVal st.fills

/-- The handler left orders, filled quantities and fills alone. -/
structure SameOrders (st st' : AccountState) : Prop where
  orders : st'.orders = st.orders
  filledQuantity : st'.filledQuantity = st.filledQuantity
  legFilled : st'.legFilled = st.legFilled
  fills : st'.fills = st.fills

theorem SameOrders.ordersOk {st st' : AccountState} (h : SameOrders st st') (hok : st.OrdersOk) :
    st'.OrdersOk := by
  have hf : st'.filledVal = st.filledVal := by
    funext id
    simp only [AccountState.filledVal, AccountState.filled, h.filledQuantity]
  unfold AccountState.OrdersOk
  rw [h.orders, hf, h.fills]
  exact hok

theorem AccountState.OrdersOk.new (account : String) : (AccountState.new account).OrdersOk where
  stored id o h := by simp [AccountState.new] at h
  unknown id _ := rfl
  unfilled id _ := by simp [filledVal, AccountState.filled, AccountState.new]

/-! ## Replacing a stored order -/

variable {orders : OMap String Order} {filled : String → ℚ} {fills : List Fill}

/-- The order stored under a key may be replaced by one that its fills allow. -/
theorem OrdersOk.put (h : OrdersOk orders filled fills) {key : String} {o : Order}
    (ho : OrderFilled o (filled key) (fillsOf fills key)) :
    OrdersOk (orders.put key o) filled fills where
  stored id p hp := by
    rw [OMap.get_put] at hp
    split at hp
    · rename_i hid
      cases hp
      exact hid ▸ ho
    · exact h.stored id p hp
  unknown id hid := by
    rw [OMap.get_put] at hid
    split at hid
    · cases hid
    · exact h.unknown id hid
  unfilled := h.unfilled

/-- What counts for the bound: instrument, side and a quantity its fills allow. -/
theorem OrderFilled.congr {o p : Order} {q : ℚ} {fs : List Fill} (h : OrderFilled o q fs)
    (hi : p.instrument = o.instrument) (hs : p.side = o.side) (hq : q ≤ p.quantity.val) :
    OrderFilled p q fs where
  filled_le := hq
  on_order hp := by
    rw [hi, hs]
    exact h.on_order (hi ▸ hp : ∃ c, o.instrument = .single c)
  sum_eq hp := h.sum_eq (hi ▸ hp : ∃ c, o.instrument = .single c)

/-- An order nothing has filled satisfies the bound. -/
theorem OrderFilled.fresh {o : Order} {q : ℚ} {fs : List Fill} (hf : fs = []) (hq : q = 0)
    (hpos : 0 ≤ o.quantity.val) : OrderFilled o q fs where
  filled_le := hq ▸ hpos
  on_order _ f hmem := by rw [hf] at hmem; cases hmem
  sum_eq _ := by rw [hf, hq]; rfl

theorem checkOrder_quantity {o : Order} {u : Unit} (h : checkOrder o = .ok u) :
    0 < o.quantity.val := by
  simp only [checkOrder, bind_eq_ok, refuseIf_eq_ok] at h
  obtain ⟨_, -, _, -, _, -, _, hq, -⟩ := h
  rw [Money.le_iff, Money.val_zero, not_le] at hq
  exact hq

theorem transitionTo_ok {o o' : Order} {target : OrderState} (h : transitionTo o target = .ok o') :
    o' = { o with state := target } ∧ (o.state = target ∨ allowed o.state target = true) := by
  simp only [transitionTo, bind_eq_ok, pure_eq_ok] at h
  obtain ⟨_, hv, rfl⟩ := h
  refine ⟨rfl, ?_⟩
  unfold validateTransition at hv
  split at hv
  · rename_i hc
    simpa using hc
  · simp at hv

/-! ## Order events -/

theorem requireOrder_ok {st : AccountState} {id : String} {kind : EventKind} {o : Order}
    (h : requireOrder st id kind = .ok o) : st.orders.get id = some o := by
  unfold requireOrder at h
  split at h
  · cases h; assumption
  · simp [fe] at h

theorem Order.same_iff_fields {o p : Order} (h : o.same p = true) :
    p.instrument = o.instrument ∧ p.side = o.side ∧ p.quantity = o.quantity ∧
      p.commandId = o.commandId ∧ p.state = o.state := by
  simp only [Order.same, Instrument.same_iff, Bool.and_eq_true, beq_iff_eq] at h
  simp_all

theorem createOrder_ok {o : Order} {orders' : OMap String Order} (ho : 0 < o.quantity.val)
    (hok : OrdersOk orders filled fills) (h : createOrder orders o = .ok orders') :
    OrdersOk orders' filled fills := by
  simp only [createOrder, bind_eq_ok, refuseIf_eq_ok, pure_eq_ok] at h
  obtain ⟨_, hsame, rfl⟩ := h
  refine hok.put ?_
  cases hg : orders.get o.orderId with
  | none =>
      have hf := hok.unknown _ hg
      exact .fresh hf (hok.unfilled _ hf) ho.le
  | some p =>
      rw [hg] at hsame
      obtain ⟨hi, hs, hq, -⟩ := Order.same_iff_fields (o := p) (p := o) (by simpa using hsame)
      have hp := hok.stored _ _ hg
      exact hp.congr hi hs (hq ▸ hp.filled_le)

theorem onOrdersCreated_ok {st st' : AccountState} {c : OrdersCreated}
    (hpos : ∀ o ∈ c.orders, 0 < o.quantity.val) (hok : st.OrdersOk)
    (h : onOrdersCreated st c = .ok st') : st'.OrdersOk := by
  simp only [onOrdersCreated, bind_eq_ok, pure_eq_ok] at h
  obtain ⟨orders', h, rfl⟩ := h
  exact foldlM_invariant (P := fun os => OrdersOk os st.filledVal st.fills)
    (fun os o os' ho hstep hos => createOrder_ok (hpos o ho) hos hstep) h hok

theorem identityChanged_false {p o : Order} (h : ¬ identityChanged p o = true) :
    o.accountId = p.accountId ∧ o.instrument = p.instrument ∧ o.side = p.side ∧
      o.commandId = p.commandId ∧ o.parentOrderId = p.parentOrderId ∧ o.ocoGroup = p.ocoGroup := by
  simp only [identityChanged, Bool.or_eq_true, bne_iff_ne, not_or, not_not, Bool.not_eq_true', Bool.not_eq_false,
    Instrument.same_iff] at h
  simp_all

theorem onOrderUpdated_ok {st st' : AccountState} {u : OrderUpdated} {kind : EventKind}
    (hok : st.OrdersOk) (h : onOrderUpdated st u kind = .ok st') : st'.OrdersOk := by
  simp only [onOrderUpdated, bind_eq_ok, pure_eq_ok, refuseIf_eq_ok] at h
  obtain ⟨p, hp, _, hid, _, -, _, hq, _, -, rfl⟩ := h
  rw [Money.lt_iff, not_lt] at hq
  obtain ⟨-, hi, hs, -⟩ := identityChanged_false hid
  have hg := requireOrder_ok hp
  change OrdersOk (st.orders.put u.order.orderId u.order) st.filledVal st.fills
  exact hok.put ((hok.stored _ _ hg).congr hi hs hq)

theorem onOrderState_ok {st st' : AccountState} {c : OrderStateChange} {kind : EventKind}
    {target : OrderState} (hok : st.OrdersOk) (h : onOrderState st c kind target = .ok st') :
    st'.OrdersOk := by
  simp only [onOrderState, bind_eq_ok, pure_eq_ok] at h
  obtain ⟨o, ho, moved, hmoved, rfl⟩ := h
  obtain ⟨rfl, -⟩ := transitionTo_ok hmoved
  have hs := hok.stored _ _ (requireOrder_ok ho)
  change OrdersOk (st.orders.put c.orderId { o with state := target }) st.filledVal st.fills
  exact hok.put (hs.congr (p := { o with state := target }) rfl rfl hs.filled_le)

/-! ## The condition on a step -/

/-- A second `OrderSubmitted` for an order with fills keeps its instrument and side and asks for at
least what is filled. -/
def resubmitKeeps (st : AccountState) (o : Order) : Bool :=
  (fillsOf st.fills o.orderId).isEmpty ||
    (st.orders.get o.orderId).any fun p =>
      o.instrument = p.instrument && o.side = p.side && !o.quantity.lt (st.filled o.orderId)

/-- The fill's quantity is added to what its order has filled without rounding. -/
def addsExactly (st : AccountState) (f : Fill) : Bool :=
  (st.orders.get f.orderId).all fun o =>
    match o.instrument, Money.add (st.filled f.orderId) f.quantity with
    | .single _, .ok r => r.val = (st.filled f.orderId).val + f.quantity.val
    | _, _ => true

/-- The condition on one event, in the state before it. -/
def fillSafe (st : AccountState) (e : Event) : Bool :=
  match e.payload with
  | .order o => resubmitKeeps st o
  | .fill f => addsExactly st f
  | _ => true

theorem resubmitKeeps_iff {st : AccountState} {o : Order} : resubmitKeeps st o = true ↔
    fillsOf st.fills o.orderId = [] ∨
      ∃ p, st.orders.get o.orderId = some p ∧ o.instrument = p.instrument ∧ o.side = p.side ∧
        st.filledVal o.orderId ≤ o.quantity.val := by
  have hlt : ∀ a b : Money, (!a.lt b) = true ↔ b.val ≤ a.val := fun a b => by
    rw [Bool.not_eq_true', Bool.eq_false_iff, Ne, Money.lt_iff, not_lt]
  simp only [resubmitKeeps, Bool.or_eq_true, List.isEmpty_iff, Option.any_eq_true,
    Bool.and_eq_true, decide_eq_true_eq, hlt, and_assoc]
  rfl

theorem addsExactly_val {st : AccountState} {f : Fill} (h : addsExactly st f = true) {o : Order}
    (hg : st.orders.get f.orderId = some o) (ho : o.IsSingle) {r : Money}
    (hr : Money.add (st.filled f.orderId) f.quantity = .ok r) :
    r.val = st.filledVal f.orderId + f.quantity.val := by
  obtain ⟨c, hc⟩ := ho
  simpa [addsExactly, hg, hc, hr, AccountState.filledVal] using h

theorem onOrderSubmitted_ok {st st' : AccountState} {o : Order} (hpos : 0 < o.quantity.val)
    (hsafe : resubmitKeeps st o = true) (hok : st.OrdersOk) (h : onOrderSubmitted st o = .ok st') :
    st'.OrdersOk := by
  simp only [onOrderSubmitted, bind_eq_ok, pure_eq_ok] at h
  obtain ⟨o', ho', _, -, rfl⟩ := h
  have hfields : o'.orderId = o.orderId ∧ o'.instrument = o.instrument ∧ o'.side = o.side ∧
      o'.quantity = o.quantity := by
    split at ho'
    · obtain ⟨rfl, -⟩ := transitionTo_ok ho'
      exact ⟨rfl, rfl, rfl, rfl⟩
    · rw [pure_eq_ok] at ho'
      subst ho'
      exact ⟨rfl, rfl, rfl, rfl⟩
  obtain ⟨hid, hi, hs, hq⟩ := hfields
  change OrdersOk (st.orders.put o'.orderId o') st.filledVal st.fills
  refine hok.put ?_
  rw [hid]
  rcases resubmitKeeps_iff.mp hsafe with hnone | ⟨p, hp, hpi, hps, hle⟩
  · exact .fresh hnone (hok.unfilled _ hnone) (by rw [hq]; exact hpos.le)
  · exact (hok.stored _ _ hp).congr (hi.trans hpi) (hs.trans hps) (by rw [hq]; exact hle)

/-! ## Fills -/

theorem fillsOf_append (fills : List Fill) (f : Fill) (id : String) :
    fillsOf (fills ++ [f]) id = fillsOf fills id ++ if f.orderId = id then [f] else [] := by
  simp only [fillsOf, List.filter_append, List.filter_cons, List.filter_nil, decide_eq_true_eq]

/-- What a fill leaves recorded of its order: its total, the orders and the earlier fills. -/
theorem recordFilled_ok {D : RustDecimal} {st st' : AccountState} {o : Order} {f : Fill}
    {leg : Option (Int × ComboLeg)} (h : recordFilled (.code D) st o leg f = .ok st') :
    st'.orders = st.orders ∧ st'.fills = st.fills ∧
      (∀ id, id ≠ f.orderId → st'.filledVal id = st.filledVal id) ∧
      (leg = none → Money.add (st.filled f.orderId) f.quantity = .ok (st'.filled f.orderId)) := by
  unfold recordFilled at h
  cases leg with
  | none =>
      simp only [bind_eq_ok, pure_eq_ok, Ops.add, except_mapError_eq_ok] at h
      obtain ⟨total, ht, rfl⟩ := h
      refine ⟨rfl, rfl, fun id hid => ?_, fun _ => ?_⟩
      · simp only [AccountState.filledVal, AccountState.filled, OMap.get_put_ne _ _ hid]
      · simpa only [AccountState.filled, OMap.get_put_self, Option.getD_some, Arith.code] using ht
  | some l =>
      simp only [bind_eq_ok] at h
      obtain ⟨_, -, _, -, _, -, best, -, h⟩ := h
      cases best with
      | none => simp at h
      | some b =>
          rw [pure_eq_ok] at h
          subst h
          refine ⟨rfl, rfl, fun id hid => ?_, fun hl => by cases hl⟩
          simp only [AccountState.filledVal, AccountState.filled, OMap.get_put_ne _ _ hid]

theorem fillOrder_ok {st st' : AccountState} {o : Order} {f : Fill} {total : Money}
    (h : fillOrder st o f total = .ok st') :
    total.val ≤ o.quantity.val ∧ st'.filledVal = st.filledVal ∧ st'.fills = st.fills ∧
      (st'.orders = st.orders ∨ ∃ s, st'.orders = st.orders.put f.orderId { o with state := s }) := by
  simp only [fillOrder, bind_eq_ok, pure_eq_ok, refuseIf_eq_ok] at h
  obtain ⟨_, hle, _, -, moved, hmoved, rfl⟩ := h
  rw [Money.gt_iff, not_lt] at hle
  refine ⟨hle, ?_, ?_, ?_⟩
  · split <;> rfl
  · split <;> rfl
  · split
    · exact Or.inl rfl
    · refine Or.inr ⟨moved.state, ?_⟩
      unfold filledOrder at hmoved
      split at hmoved
      · cases hmoved; rfl
      · obtain ⟨rfl, -⟩ := transitionTo_ok hmoved
        rfl

theorem comboLeg_single {o : Order} {f : Fill} {leg : Option (Int × ComboLeg)} (ho : o.IsSingle)
    (h : comboLeg o f = .ok leg) : leg = none := by
  obtain ⟨c, hc⟩ := ho
  simpa [comboLeg, hc] using h.symm

theorem onFill_ok {D : RustDecimal} {st st' : AccountState} {f : Fill}
    (hsafe : addsExactly st f = true) (hok : st.OrdersOk) (h : onFill (.code D) st f = .ok st') : st'.OrdersOk := by
  simp only [onFill, bind_eq_ok, pure_eq_ok] at h
  obtain ⟨o, ho, leg, hleg, _, hcheck, _, -, _, -, _, -, _, -, _, -, _, -, _, -, st₁, h₁, st₂, h₂,
    _, -, _, -, _, -, rfl⟩ := h
  have hg : st.orders.get f.orderId = some o := by
    split at ho
    · rw [pure_eq_ok] at ho; subst ho; assumption
    · simp [fe] at ho
  obtain ⟨hord₁, hfills₁, hother₁, htotal₁⟩ := recordFilled_ok h₁
  obtain ⟨hle, hval₂, hfills₂, hord₂⟩ := fillOrder_ok h₂
  have hstored := hok.stored _ _ hg
  have hfilled : st₂.filledVal f.orderId = (st₁.filled f.orderId).val := by rw [hval₂]; rfl
  -- the order the fill is of, with the fill counted
  have hnew : OrderFilled o (st₂.filledVal f.orderId) (fillsOf (st₂.fills ++ [f]) f.orderId) := by
    rw [hfills₂, hfills₁, fillsOf_append, if_pos rfl, hfilled]
    refine ⟨hle, fun hs x hx => ?_, fun hs => ?_⟩
    · have hnone := comboLeg_single hs hleg
      rcases List.mem_append.mp hx with hx | hx
      · exact hstored.on_order hs x hx
      · rw [List.mem_singleton] at hx
        subst hx
        exact (checkFill_ok hcheck).1 hnone
    · have hnone := comboLeg_single hs hleg
      have hadd : (st₁.filled f.orderId).val = st.filledVal f.orderId + f.quantity.val :=
        addsExactly_val hsafe hg hs (htotal₁ hnone)
      have hsum : ((fillsOf st.fills f.orderId).map (·.quantity.val)).sum =
        st.filledVal f.orderId := hstored.sum_eq hs
      simp only [List.map_append, List.map_cons, List.map_nil, List.sum_append, List.sum_cons,
        List.sum_nil, add_zero]
      rw [hadd, ← hsum]
  have hbase : OrdersOk st.orders st₂.filledVal (st₂.fills ++ [f]) := by
    refine ⟨fun id p hp => ?_, fun id hid => ?_, fun id hid => ?_⟩
    · by_cases hc : id = f.orderId
      · subst hc
        rw [hg] at hp
        cases hp
        exact hnew
      · rw [hfills₂, hfills₁, fillsOf_append, if_neg (fun h => hc h.symm), List.append_nil, hval₂]
        exact hother₁ id hc ▸ hok.stored id p hp
    · have hc : f.orderId ≠ id := by
        rintro rfl
        rw [hg] at hid
        cases hid
      rw [hfills₂, hfills₁, fillsOf_append, if_neg hc, List.append_nil]
      exact hok.unknown id hid
    · have hc : f.orderId ≠ id := by
        rintro rfl
        simp [fillsOf_append] at hid
      rw [hfills₂, hfills₁, fillsOf_append, if_neg hc, List.append_nil] at hid
      rw [hval₂, hother₁ id (fun h => hc h.symm)]
      exact hok.unfilled id hid
  change OrdersOk st₂.orders st₂.filledVal (st₂.fills ++ [f])
  rcases hord₂ with hord₂ | ⟨s, hord₂⟩
  · rw [hord₂, hord₁]
    exact hbase
  · rw [hord₂, hord₁]
    exact hbase.put (hnew.congr (p := { o with state := s }) rfl rfl hnew.filled_le)

/-! ## What an event can do to the orders -/

theorem mirrorStep_orders {st st' : AccountState} {kind : EventKind}
    {step : MirrorState → R MirrorState} (h : mirrorStep st kind step = .ok st') :
    SameOrders st st' := by
  unfold mirrorStep at h
  split at h
  · cases h; exact ⟨rfl, rfl, rfl, rfl⟩
  · split at h
    · simp [fe] at h
    · cases h

/-- An accepted event leaves the orders alone, or is one of the five that its handler applies. -/
inductive OrderStep (A : Arith) (st : AccountState) (e : Event) : AccountState → Prop where
  | other {st'} (same : SameOrders st st') : OrderStep A st e st'
  | created {st'} (c : OrdersCreated) (hp : e.payload = .ordersCreated c)
      (h : onOrdersCreated st c = .ok st') : OrderStep A st e st'
  | submitted {st'} (o : Order) (hp : e.payload = .order o) (h : onOrderSubmitted st o = .ok st') :
      OrderStep A st e st'
  | updated {st'} (u : OrderUpdated) (hp : e.payload = .orderUpdated u)
      (h : onOrderUpdated st u e.kind = .ok st') : OrderStep A st e st'
  | moved {st'} (c : OrderStateChange) (target : OrderState) (hp : e.payload = .stateChange c)
      (ht : stateTarget e.kind = some target) (h : onOrderState st c e.kind target = .ok st') :
      OrderStep A st e st'
  | filled {st'} (f : Fill) (hp : e.payload = .fill f) (h : onFill A st f = .ok st') :
      OrderStep A st e st'

theorem dispatch_orderStep {A : Arith} {st st' : AccountState} {e : Event}
    (h : dispatch A st e = .ok st') : OrderStep A st e st' := by
  unfold dispatch at h
  split at h
  case h_1 =>
    split at h
    · cases h; exact .other ⟨rfl, rfl, rfl, rfl⟩
    · simp at h
  case h_3 c hp => exact .created c hp h
  case h_5 o hp => exact .submitted o hp h
  case h_6 u hp => exact .updated u hp h
  case h_7 c hp =>
    split at h
    · rename_i target ht
      exact .moved c target hp ht h
    · simp only [bind_eq_ok, pure_eq_ok] at h
      obtain ⟨_, -, rfl⟩ := h
      exact .other ⟨rfl, rfl, rfl, rfl⟩
  case h_8 =>
    simp only [bind_eq_ok, pure_eq_ok] at h
    obtain ⟨_, -, rfl⟩ := h
    exact .other ⟨rfl, rfl, rfl, rfl⟩
  case h_9 f hp => exact .filled f hp h
  case h_10 =>
    simp only [bind_eq_ok, pure_eq_ok] at h
    obtain ⟨_, -, rfl⟩ := h
    exact .other ⟨rfl, rfl, rfl, rfl⟩
  case h_13 =>
    simp only [onHaltCleared, bind_eq_ok, pure_eq_ok] at h
    obtain ⟨_, -, rfl⟩ := h
    exact .other ⟨rfl, rfl, rfl, rfl⟩
  case h_15 =>
    simp only [onLifecycle, bind_eq_ok, pure_eq_ok] at h
    obtain ⟨_, -, _, -, _, -, _, -, _, -, _, -, _, -, _, -, rfl⟩ := h
    exact .other ⟨rfl, rfl, rfl, rfl⟩
  case h_16 => exact .other (mirrorStep_orders h)
  case h_17 => exact .other (mirrorStep_orders h)
  case h_18 => exact .other (mirrorStep_orders h)
  case h_19 => exact .other (mirrorStep_orders h)
  case h_20 => simp at h
  all_goals cases h; exact .other ⟨rfl, rfl, rfl, rfl⟩

theorem applyEvent_orderStep {A : Arith} {st st' : AccountState} {e : Event}
    (h : applyEvent A st e = .ok st') :
    ∃ st₁, OrderStep A st e st₁ ∧ { st₁ with lastSeq := e.seq.getD st₁.lastSeq } = st' := by
  simp only [applyEvent, bind_eq_ok, pure_eq_ok] at h
  obtain ⟨st₁, h, rfl⟩ := h
  exact ⟨st₁, dispatch_orderStep h, rfl⟩

/-! ## Runs -/

/-- Every event of the run meets `cond` in the state it is applied to. -/
def everyStep (A : Arith) (cond : AccountState → Event → Bool) : AccountState → List Event → Bool
  | _, [] => true
  | st, e :: es => cond st e && match applyEvent A st e with
    | .ok st' => everyStep A cond st' es
    | .error _ => true

theorem everyStep_cons {A : Arith} {cond : AccountState → Event → Bool} {st st' : AccountState}
    {e : Event} {es : List Event} (h : everyStep A cond st (e :: es) = true)
    (hs : applyEvent A st e = .ok st') : cond st e = true ∧ everyStep A cond st' es = true := by
  rw [everyStep, Bool.and_eq_true, hs] at h
  exact h

theorem everyStep_append_left {A : Arith} {cond : AccountState → Event → Bool} {st : AccountState}
    {es fs : List Event} (h : everyStep A cond st (es ++ fs) = true) :
    everyStep A cond st es = true := by
  induction es generalizing st with
  | nil => rfl
  | cons e es ih =>
      simp only [List.cons_append, everyStep, Bool.and_eq_true] at h ⊢
      refine ⟨h.1, ?_⟩
      cases hs : applyEvent A st e with
      | ok st' =>
          have h2 := h.2
          rw [hs] at h2
          exact ih h2
      | error x => rfl

theorem applyEvent_ordersOk {D : RustDecimal} {st st' : AccountState} {e : Event}
    (hsafe : fillSafe st e = true) (hok : st.OrdersOk) (h : applyEvent (.code D) st e = .ok st') :
    st'.OrdersOk := by
  have hbuilt := e.built
  unfold fillSafe at hsafe
  obtain ⟨st₁, hstep, rfl⟩ := applyEvent_orderStep h
  refine (show SameOrders st₁ _ from ⟨rfl, rfl, rfl, rfl⟩).ordersOk ?_
  cases hstep with
  | other same => exact same.ordersOk hok
  | created c hp h =>
      refine onOrdersCreated_ok (fun o ho => ?_) hok h
      rw [hp] at hbuilt
      obtain ⟨_, hall, -⟩ := bind_eq_ok.mp hbuilt
      exact checkOrder_quantity (forM_ok hall o ho)
  | submitted o hp h =>
      rw [hp] at hbuilt hsafe
      exact onOrderSubmitted_ok (checkOrder_quantity hbuilt) hsafe hok h
  | updated u hp h => exact onOrderUpdated_ok hok h
  | moved c target hp ht h => exact onOrderState_ok hok h
  | filled f hp h =>
      rw [hp] at hsafe
      exact onFill_ok hsafe hok h

theorem run_ordersOk {D : RustDecimal} {es : List Event} {st st' : AccountState}
    (hsafe : everyStep (.code D) fillSafe st es = true) (hok : st.OrdersOk)
    (h : es.foldlM (applyEvent (.code D)) st = .ok st') : st'.OrdersOk := by
  induction es generalizing st with
  | nil => cases h; exact hok
  | cons e es ih =>
      simp only [List.foldlM_cons, bind_eq_ok] at h
      obtain ⟨st₁, h₁, h⟩ := h
      obtain ⟨hsafe, hrest⟩ := everyStep_cons hsafe h₁
      exact ih hrest (applyEvent_ordersOk hsafe hok h₁) h

end TradeEngine
