import TradeEngine.Ledger.Lemmas.Orders

/-!
# What one event can do to one order

Orders are never removed, keep their id and their account, and never return to `NEW`.
-/

namespace TradeEngine

open Lib

variable {A : Arith}

/-- How an event may change the order stored under an id. -/
inductive OrderChange (e : Event) (id : String) : Option Order → Option Order → Prop where
  | kept (x : Option Order) : OrderChange e id x x
  | created (x : Option Order) (o : Order) (ho : o ∈ e.payload.createdOrders) (hid : o.orderId = id)
      (hx : ∀ p, x = some p → p.state = o.state ∧ p.quantity = o.quantity) :
      OrderChange e id x (some o)
  | submitted (x : Option Order) (o : Order) (s : OrderState) (hp : e.payload = .order o)
      (hid : o.orderId = id) (hs : s ≠ .new) (hx : ∀ p, x = some p → p.state = .submitted) :
      OrderChange e id x (some { o with state := s })
  | updated (p : Order) (u : OrderUpdated) (hp : e.payload = .orderUpdated u)
      (hid : u.order.orderId = id) (hacc : u.order.accountId = p.accountId)
      (hs : p.state = u.order.state ∨ allowed p.state u.order.state = true) :
      OrderChange e id (some p) (some u.order)
  | moved (p : Order) (c : OrderStateChange) (target : OrderState) (hp : e.payload = .stateChange c)
      (hid : c.orderId = id) (ht : stateTarget e.kind = some target)
      (hs : p.state = target ∨ allowed p.state target = true) :
      OrderChange e id (some p) (some { p with state := target })
  | filled (p : Order) (f : Fill) (s : OrderState) (hp : e.payload = .fill f)
      (hid : f.orderId = id) (hs : p.state = s ∨ allowed p.state s = true) :
      OrderChange e id (some p) (some { p with state := s })

theorem OrderChange.persists {e : Event} {id : String} {p : Order} {y : Option Order}
    (h : OrderChange e id (some p) y) : ∃ o, y = some o := by
  cases h <;> exact ⟨_, rfl⟩

theorem not_allowed_new (s : OrderState) : allowed s .new = false := by cases s <;> rfl

theorem OrderChange.leaves_new {e : Event} {id : String} {p o : Order}
    (h : OrderChange e id (some p) (some o)) (hp : p.state ≠ .new) : o.state ≠ .new := by
  have hmove : ∀ s, (p.state = s ∨ allowed p.state s = true) → s ≠ .new := by
    rintro s hs rfl
    rcases hs with hs | hs
    · exact hp hs
    · rw [not_allowed_new] at hs
      cases hs
  cases h with
  | kept => exact hp
  | created _ _ _ _ hx => exact (hx p rfl).1 ▸ hp
  | submitted _ _ _ _ _ hs _ => exact hs
  | updated _ _ _ _ _ hs => exact hmove _ hs
  | moved _ _ _ _ _ _ hs => exact hmove _ hs
  | filled _ _ _ _ _ hs => exact hmove _ hs

/-- The states no transition leaves. -/
def OrderState.Ended (s : OrderState) : Prop :=
  s = .filled ∨ s = .cancelled ∨ s = .expired ∨ s = .rejected

instance (s : OrderState) : Decidable s.Ended := inferInstanceAs (Decidable (_ ∨ _))

theorem OrderState.Ended.not_allowed {s : OrderState} (h : s.Ended) (t : OrderState) :
    allowed s t = false := by
  rcases h with rfl | rfl | rfl | rfl <;> rfl

theorem OrderChange.keeps_ended {e : Event} {id : String} {p o : Order}
    (h : OrderChange e id (some p) (some o)) (hp : p.state.Ended) : o.state = p.state := by
  have hmove : ∀ s, (p.state = s ∨ allowed p.state s = true) → s = p.state := by
    rintro s (hs | hs)
    · exact hs.symm
    · rw [hp.not_allowed] at hs
      cases hs
  cases h with
  | kept => rfl
  | created _ _ _ _ hx => exact (hx p rfl).1.symm
  | submitted _ _ _ _ _ _ hx =>
      rw [hx p rfl] at hp
      exact absurd hp (by decide)
  | updated _ _ _ _ _ hs => exact hmove _ hs
  | moved _ _ _ _ _ _ hs => exact hmove _ hs
  | filled _ _ _ _ _ hs => exact hmove _ hs

/-- Only an update gives an ended order another quantity. -/
theorem OrderChange.quantity {e : Event} {id : String} {p o : Order}
    (h : OrderChange e id (some p) (some o)) (hp : p.state.Ended) : o.quantity = p.quantity ∨
      ∃ u, e.payload = .orderUpdated u ∧ u.order.orderId = id ∧ u.order = o := by
  cases h with
  | kept => exact Or.inl rfl
  | created _ _ _ _ hx => exact Or.inl (hx p rfl).2.symm
  | submitted _ _ _ _ _ _ hx =>
      rw [hx p rfl] at hp
      exact absurd hp (by decide)
  | updated _ u hp hid _ _ => exact Or.inr ⟨u, hp, hid, rfl⟩
  | moved => exact Or.inl rfl
  | filled => exact Or.inl rfl

/-! ## One lemma per handler -/

theorem createOrders_change {e : Event} {id : String} {os : List Order}
    (hos : ∀ o ∈ os, o ∈ e.payload.createdOrders) {m m' : OMap String Order}
    (h : os.foldlM createOrder m = .ok m') : OrderChange e id (m.get id) (m'.get id) := by
  induction os generalizing m with
  | nil => cases h; exact .kept _
  | cons o os ih =>
      simp only [List.foldlM_cons, bind_eq_ok] at h
      obtain ⟨m₁, h₁, h⟩ := h
      have hrest := ih (fun p hp => hos p (List.mem_cons_of_mem _ hp)) h
      simp only [createOrder, bind_eq_ok, refuseIf_eq_ok, pure_eq_ok] at h₁
      obtain ⟨_, hsame, rfl⟩ := h₁
      rw [OMap.get_put] at hrest
      split at hrest
      case isFalse => exact hrest
      case isTrue hid =>
        -- the order is stored at `id`, and a later one of the batch may only repeat it
        have hstate : ∀ p, m.get id = some p → p.state = o.state ∧ p.quantity = o.quantity := by
          intro p hp
          rw [← hid, hp] at hsame
          obtain ⟨-, -, hq, -, hs⟩ := Order.same_iff_fields (by simpa using hsame)
          exact ⟨hs.symm, hq.symm⟩
        cases hm : m'.get id with
        | none =>
            rw [hm] at hrest
            cases hrest
        | some o' =>
            rw [hm] at hrest
            cases hrest with
            | kept => exact .created _ _ (hos _ List.mem_cons_self) hid.symm hstate
            | created _ _ ho' hid' hx =>
                refine .created _ _ ho' hid' fun p hp => ?_
                obtain ⟨hs, hq⟩ := hstate p hp
                obtain ⟨hs', hq'⟩ := hx o rfl
                exact ⟨hs.trans hs', hq.trans hq'⟩
            | submitted _ _ _ hp =>
                have := hos o List.mem_cons_self
                simp [Obj.createdOrders, hp] at this
            | updated _ _ hp =>
                have := hos o List.mem_cons_self
                simp [Obj.createdOrders, hp] at this
            | moved _ _ _ hp =>
                have := hos o List.mem_cons_self
                simp [Obj.createdOrders, hp] at this
            | filled _ _ _ hp =>
                have := hos o List.mem_cons_self
                simp [Obj.createdOrders, hp] at this

theorem onOrdersCreated_change {e : Event} {c : OrdersCreated} (hp : e.payload = .ordersCreated c)
    {st st' : AccountState} (h : onOrdersCreated st c = .ok st') (id : String) :
    OrderChange e id (st.orders.get id) (st'.orders.get id) := by
  simp only [onOrdersCreated, bind_eq_ok, pure_eq_ok] at h
  obtain ⟨m, h, rfl⟩ := h
  exact createOrders_change (fun o ho => by rw [hp]; exact ho) h

theorem onOrderSubmitted_change {e : Event} {o : Order} (hp : e.payload = .order o)
    {st st' : AccountState} (h : onOrderSubmitted st o = .ok st') (id : String) :
    OrderChange e id (st.orders.get id) (st'.orders.get id) := by
  simp only [onOrderSubmitted, bind_eq_ok, pure_eq_ok] at h
  obtain ⟨o', ho', _, hcheck, rfl⟩ := h
  have hfields : ∃ s, o' = { o with state := s } ∧ s ≠ .new := by
    split at ho'
    · exact ⟨_, (transitionTo_ok ho').1, by decide⟩
    · rw [pure_eq_ok] at ho'
      exact ⟨o.state, ho'.symm, by assumption⟩
  obtain ⟨s, rfl, hs⟩ := hfields
  dsimp only
  rw [OMap.get_put]
  split
  · rename_i hid
    refine .submitted _ _ _ hp hid.symm hs fun p hget => ?_
    dsimp only at hid hcheck
    rw [← hid, hget] at hcheck
    simp only [checkResubmit, bind_eq_ok, refuseIf_eq_ok, not_not] at hcheck
    obtain ⟨_, -, hsub⟩ := hcheck
    exact hsub
  · exact .kept _

theorem validateTransition_ok {s t : OrderState} {u : Unit} (h : validateTransition s t = .ok u) :
    s = t ∨ allowed s t = true := by
  unfold validateTransition at h
  split at h
  · rename_i hc
    simpa using hc
  · simp at h

/-- An update stores its order over one of the same account, by an allowed transition. -/
theorem onOrderUpdated_fields {u : OrderUpdated} {kind : EventKind} {st st' : AccountState}
    (h : onOrderUpdated st u kind = .ok st') : ∃ p, st.orders.get u.order.orderId = some p ∧
      u.order.accountId = p.accountId ∧ (p.state = u.order.state ∨ allowed p.state u.order.state = true) ∧
      st'.orders = st.orders.put u.order.orderId u.order := by
  simp only [onOrderUpdated, bind_eq_ok, pure_eq_ok, refuseIf_eq_ok, except_mapError_eq_ok] at h
  obtain ⟨p, hp, _, hid, _, hv, _, -, _, -, rfl⟩ := h
  exact ⟨p, requireOrder_ok hp, (identityChanged_false hid).1, validateTransition_ok hv, rfl⟩

/-- A state event moves its order to the event's target. -/
theorem onOrderState_fields {c : OrderStateChange} {kind : EventKind} {target : OrderState}
    {st st' : AccountState} (h : onOrderState st c kind target = .ok st') :
    ∃ p, st.orders.get c.orderId = some p ∧ (p.state = target ∨ allowed p.state target = true) ∧
      st'.orders = st.orders.put c.orderId { p with state := target } := by
  simp only [onOrderState, bind_eq_ok, pure_eq_ok] at h
  obtain ⟨p, hp, moved, hmoved, rfl⟩ := h
  obtain ⟨rfl, hs⟩ := transitionTo_ok hmoved
  exact ⟨p, requireOrder_ok hp, hs, rfl⟩

theorem recordFilled_orders {st st' : AccountState} {o : Order} {f : Fill}
    {leg : Option (Int × ComboLeg)} (h : recordFilled A st o leg f = .ok st') :
    st'.orders = st.orders := by
  unfold recordFilled at h
  cases leg with
  | none =>
      simp only [bind_eq_ok, pure_eq_ok] at h
      obtain ⟨_, -, rfl⟩ := h
      rfl
  | some leg =>
      simp only [bind_eq_ok] at h
      obtain ⟨_, -, _, -, _, -, best, -, h⟩ := h
      cases best with
      | none => simp at h
      | some b =>
          rw [pure_eq_ok] at h
          subst h
          rfl

/-- A fill leaves the orders alone or moves its own order by an allowed transition. -/
theorem onFill_orders {f : Fill} {st st' : AccountState} (h : onFill A st f = .ok st') :
    st'.orders = st.orders ∨ ∃ p s, st.orders.get f.orderId = some p ∧
      (p.state = s ∨ allowed p.state s = true) ∧
      st'.orders = st.orders.put f.orderId { p with state := s } := by
  simp only [onFill, bind_eq_ok, pure_eq_ok] at h
  obtain ⟨o, ho, leg, -, _, -, _, -, _, -, _, -, _, -, _, -, _, -, _, -, st₁, h₁, st₂, h₂, _, -, _, -,
    _, -, rfl⟩ := h
  have hg : st.orders.get f.orderId = some o := by
    split at ho
    · rw [pure_eq_ok] at ho
      subst ho
      assumption
    · simp [fe] at ho
  have hst₁ := recordFilled_orders h₁
  simp only [fillOrder, bind_eq_ok, pure_eq_ok] at h₂
  obtain ⟨_, -, _, -, moved, hmoved, rfl⟩ := h₂
  dsimp only
  split
  · exact Or.inl hst₁
  · refine Or.inr ⟨o, moved.state, hg, ?_⟩
    unfold filledOrder at hmoved
    split at hmoved
    · cases hmoved
      exact ⟨Or.inl rfl, by rw [← hst₁]⟩
    · obtain ⟨rfl, hs⟩ := transitionTo_ok hmoved
      exact ⟨hs, by rw [← hst₁]⟩

/-! ## One event -/

theorem applyEvent_change {e : Event} {st st' : AccountState} (h : applyEvent A st e = .ok st')
    (id : String) : OrderChange e id (st.orders.get id) (st'.orders.get id) := by
  obtain ⟨st₁, hstep, rfl⟩ := applyEvent_orderStep h
  dsimp only
  cases hstep with
  | other hsame =>
      rw [hsame.orders]
      exact .kept _
  | created c hp h => exact onOrdersCreated_change hp h id
  | submitted o hp h => exact onOrderSubmitted_change hp h id
  | updated u hp h =>
      obtain ⟨p, hg, hacc, hs, ho⟩ := onOrderUpdated_fields h
      rw [ho, OMap.get_put]
      split
      · rename_i hid
        rw [hid, hg]
        exact .updated p u hp rfl hacc hs
      · exact .kept _
  | moved c target hp ht h =>
      obtain ⟨p, hg, hs, ho⟩ := onOrderState_fields h
      rw [ho, OMap.get_put]
      split
      · rename_i hid
        rw [hid, hg]
        exact .moved p c target hp rfl ht hs
      · exact .kept _
  | filled f hp h =>
      rcases onFill_orders h with ho | ⟨p, s, hg, hs, ho⟩
      · rw [ho]
        exact .kept _
      · rw [ho, OMap.get_put]
        split
        · rename_i hid
          rw [hid, hg]
          exact .filled p f s hp rfl hs
        · exact .kept _

/-- After an update the order is the one it carries. -/
theorem applyEvent_updated {e : Event} {u : OrderUpdated} (hp : e.payload = .orderUpdated u)
    {st st' : AccountState} (h : applyEvent A st e = .ok st') :
    st'.orders.get u.order.orderId = some u.order := by
  simp only [applyEvent, dispatch, hp, bind_eq_ok, pure_eq_ok] at h
  obtain ⟨st₁, h, rfl⟩ := h
  obtain ⟨-, -, -, -, ho⟩ := onOrderUpdated_fields h
  dsimp only
  rw [ho, OMap.get_put_self]

/-- A state event puts its order in the event's target. -/
theorem applyEvent_moves {e : Event} {c : OrderStateChange} {target : OrderState}
    (hp : e.payload = .stateChange c) (ht : stateTarget e.kind = some target)
    {st st' : AccountState} (h : applyEvent A st e = .ok st') : ∃ p,
      st.orders.get c.orderId = some p ∧ st'.orders.get c.orderId = some { p with state := target } := by
  simp only [applyEvent, dispatch, hp, ht, bind_eq_ok, pure_eq_ok] at h
  obtain ⟨st₁, h, rfl⟩ := h
  obtain ⟨p, hget, -, ho⟩ := onOrderState_fields h
  refine ⟨p, hget, ?_⟩
  dsimp only
  rw [ho, OMap.get_put_self]

theorem applyEvent_moved {e : Event} {c : OrderStateChange} {target : OrderState}
    (hp : e.payload = .stateChange c) (ht : stateTarget e.kind = some target)
    {st st' : AccountState} (h : applyEvent A st e = .ok st') :
    ∃ o, st'.orders.get c.orderId = some o ∧ o.state = target := by
  obtain ⟨p, -, ho⟩ := applyEvent_moves hp ht h
  exact ⟨_, ho, rfl⟩

/-! ## What an event can do to a filled quantity -/

/-- A fill adds to its own order only, within its quantity, and never to one that ended unfilled. -/
theorem onFill_filled {f : Fill} {st st' : AccountState} (h : onFill A st f = .ok st') :
    ∃ o total, st.orders.get f.orderId = some o ∧
      (o.state ≠ .cancelled ∧ o.state ≠ .expired ∧ o.state ≠ .rejected) ∧
      total.val ≤ o.quantity.val ∧ st'.filledQuantity = st.filledQuantity.put f.orderId total := by
  simp only [onFill, bind_eq_ok, pure_eq_ok] at h
  obtain ⟨o, ho, leg, -, _, -, _, -, _, -, _, -, _, -, _, -, _, -, _, -, st₁, h₁, st₂, h₂, _, -, _, -,
    _, -, rfl⟩ := h
  have hg : st.orders.get f.orderId = some o := by
    split at ho
    · rw [pure_eq_ok] at ho
      subst ho
      assumption
    · simp [fe] at ho
  obtain ⟨total, ht⟩ : ∃ total, st₁.filledQuantity = st.filledQuantity.put f.orderId total := by
    unfold recordFilled at h₁
    cases leg with
    | none =>
        simp only [bind_eq_ok, pure_eq_ok] at h₁
        obtain ⟨total, -, rfl⟩ := h₁
        exact ⟨total, rfl⟩
    | some leg =>
        simp only [bind_eq_ok] at h₁
        obtain ⟨_, -, _, -, _, -, best, -, h₁⟩ := h₁
        cases best with
        | none => simp at h₁
        | some b =>
            rw [pure_eq_ok] at h₁
            subst h₁
            exact ⟨b, rfl⟩
  have hfilled : st₁.filled f.orderId = total := by
    rw [AccountState.filled, ht, OMap.get_put_self, Option.getD_some]
  simp only [fillOrder, bind_eq_ok, pure_eq_ok, refuseIf_eq_ok] at h₂
  obtain ⟨_, hle, _, hdead, moved, -, rfl⟩ := h₂
  rw [hfilled, Money.gt_iff, not_lt] at hle
  simp only [Bool.or_eq_true, decide_eq_true_eq, not_or] at hdead
  refine ⟨o, total, hg, ⟨hdead.1.1, hdead.1.2, hdead.2⟩, hle, ?_⟩
  dsimp only
  split
  · exact ht
  · exact ht

/-- An update keeps what is filled and asks for at least as much. -/
theorem onOrderUpdated_filled {u : OrderUpdated} {kind : EventKind} {st st' : AccountState}
    (h : onOrderUpdated st u kind = .ok st') :
    (st.filled u.order.orderId).val ≤ u.order.quantity.val ∧
      st'.filledQuantity = st.filledQuantity := by
  simp only [onOrderUpdated, bind_eq_ok, pure_eq_ok, refuseIf_eq_ok] at h
  obtain ⟨_, -, _, -, _, -, _, hq, _, -, rfl⟩ := h
  rw [Money.lt_iff, not_lt] at hq
  exact ⟨hq, rfl⟩

theorem applyEvent_updated_filled {e : Event} {u : OrderUpdated} (hp : e.payload = .orderUpdated u)
    {st st' : AccountState} (h : applyEvent A st e = .ok st') :
    (st.filled u.order.orderId).val ≤ u.order.quantity.val ∧
      st'.filledQuantity = st.filledQuantity := by
  simp only [applyEvent, dispatch, hp, bind_eq_ok, pure_eq_ok] at h
  obtain ⟨st₁, h, rfl⟩ := h
  obtain ⟨hq, hf⟩ := onOrderUpdated_filled h
  exact ⟨hq, hf⟩

theorem applyEvent_filled {e : Event} {st st' : AccountState} (h : applyEvent A st e = .ok st') :
    st'.filledQuantity = st.filledQuantity ∨ ∃ f o total, e.payload = .fill f ∧
      st.orders.get f.orderId = some o ∧
      (o.state ≠ .cancelled ∧ o.state ≠ .expired ∧ o.state ≠ .rejected) ∧
      total.val ≤ o.quantity.val ∧ st'.filledQuantity = st.filledQuantity.put f.orderId total := by
  obtain ⟨st₁, hstep, rfl⟩ := applyEvent_orderStep h
  dsimp only
  cases hstep with
  | other same => exact Or.inl same.filledQuantity
  | created c hp h =>
      simp only [onOrdersCreated, bind_eq_ok, pure_eq_ok] at h
      obtain ⟨_, -, rfl⟩ := h
      exact Or.inl rfl
  | submitted p hp h =>
      simp only [onOrderSubmitted, bind_eq_ok, pure_eq_ok] at h
      obtain ⟨_, -, _, -, rfl⟩ := h
      exact Or.inl rfl
  | updated u hp h => exact Or.inl (onOrderUpdated_filled h).2
  | moved c target hp ht h =>
      simp only [onOrderState, bind_eq_ok, pure_eq_ok] at h
      obtain ⟨_, -, _, -, rfl⟩ := h
      exact Or.inl rfl
  | filled f hp h =>
      obtain ⟨o, total, hg, hdead, hle, hfq⟩ := onFill_filled h
      exact Or.inr ⟨f, o, total, hp, hg, hdead, hle, hfq⟩

/-- An ended order after one event: in the same state, its filled quantity unchanged unless it is
`FILLED` and the event is a fill of it, within its quantity. -/
theorem applyEvent_ended {e : Event} {st st' : AccountState} (h : applyEvent A st e = .ok st')
    {id : String} {o : Order} (ho : st.orders.get id = some o) (hend : o.state.Ended) :
    ∃ o', st'.orders.get id = some o' ∧ o'.state = o.state ∧
      ((st'.filled id = st.filled id ∧
          ((st.filled id).val ≤ o.quantity.val → (st.filled id).val ≤ o'.quantity.val)) ∨
        (o.state = .filled ∧ (∃ f, e.payload = .fill f ∧ f.orderId = id) ∧
          (st'.filled id).val ≤ o'.quantity.val)) := by
  have hchange := applyEvent_change h id
  rw [ho] at hchange
  obtain ⟨o', ho'⟩ := hchange.persists
  rw [ho'] at hchange
  refine ⟨o', ho', hchange.keeps_ended hend, ?_⟩
  rcases hchange.quantity hend with hq | ⟨u, hp, hid, rfl⟩
  · rcases applyEvent_filled h with hf | ⟨f, p, total, hp, hg, hdead, hle, hf⟩
    · exact Or.inl ⟨by simp only [AccountState.filled, hf], fun hle => hq ▸ hle⟩
    · by_cases hid : f.orderId = id
      · subst hid
        rw [ho] at hg
        cases hg
        have hfilled : o.state = .filled := by
          rcases hend with hend | hend | hend | hend
          · exact hend
          · exact absurd hend hdead.1
          · exact absurd hend hdead.2.1
          · exact absurd hend hdead.2.2
        refine Or.inr ⟨hfilled, ⟨f, hp, rfl⟩, ?_⟩
        rw [AccountState.filled, hf, OMap.get_put_self, Option.getD_some, hq]
        exact hle
      · refine Or.inl ⟨?_, fun hle => hq ▸ hle⟩
        simp only [AccountState.filled, hf, OMap.get_put_ne _ _ (fun hc => hid hc.symm)]
  · obtain ⟨hle, hf⟩ := applyEvent_updated_filled hp h
    refine Or.inl ⟨by simp only [AccountState.filled, hf], fun _ => hid ▸ hle⟩

/-! ## Filled quantities are not negative -/

/-- No order, and no leg of one, has filled less than nothing. -/
structure AccountState.FillsNonneg (st : AccountState) : Prop where
  orders : ∀ id, 0 ≤ (st.filled id).val
  legs : ∀ key, 0 ≤ ((st.legFilled.get key).getD .zero).val

theorem AccountState.FillsNonneg.new (account : String) : (AccountState.new account).FillsNonneg :=
  ⟨fun _ => Money.val_zero.ge, fun _ => Money.val_zero.ge⟩

theorem comboUnits_nonneg {D : RustDecimal} {legFilled : OMap (String × Int) Money} {id : String}
    {legs : List ComboLeg} {index : Int} {best r : Option Money}
    (hlegs : ∀ key, 0 ≤ ((legFilled.get key).getD .zero).val) (hbest : ∀ b, best = some b → 0 ≤ b.val)
    (h : comboUnits (.code D) legFilled id legs index best = .ok r) : ∀ b, r = some b → 0 ≤ b.val := by
  induction legs generalizing index best with
  | nil =>
      cases h
      exact hbest
  | cons leg legs ih =>
      simp only [comboUnits, bind_eq_ok] at h
      obtain ⟨units, hunits, h⟩ := h
      have hpos : 0 ≤ units.val := by
        simp only [Ops.divI, Arith.divI, except_mapError_eq_ok, bind_eq_ok] at hunits
        obtain ⟨ratio, hratio, hunits⟩ := hunits
        refine Money.div_nonneg (hlegs _) ?_ hunits
        rw [Money.fromI128_val hratio]
        exact_mod_cast leg.ratio_pos.le
      refine ih (fun b hb => ?_) h
      cases best with
      | none => cases hb; exact hpos
      | some b' =>
          simp only [Option.some.injEq] at hb
          split at hb
          · exact hb ▸ hpos
          · exact hb ▸ hbest b' rfl

theorem recordFilled_nonneg {D : RustDecimal} {st st' : AccountState} {o : Order}
    {leg : Option (Int × ComboLeg)} {f : Fill} (hst : st.FillsNonneg)
    (h : recordFilled (.code D) st o leg f = .ok st') : st'.FillsNonneg := by
  have hput : ∀ {total : Money}, 0 ≤ total.val → ∀ id,
      0 ≤ (((st.filledQuantity.put f.orderId total).get id).getD .zero).val := by
    intro total htotal id
    rw [OMap.get_put]
    split
    · exact htotal
    · exact hst.orders id
  have hadd : ∀ {a total : Money}, 0 ≤ a.val → Ops.add (.code D) a f.quantity = .ok total →
      0 ≤ total.val := by
    intro a total ha h
    rw [Ops.add, except_mapError_eq_ok] at h
    exact Money.add_nonneg ha (Money.val_pos_iff.mpr f.quantity_pos).le h
  unfold recordFilled at h
  cases leg with
  | none =>
      simp only [bind_eq_ok, pure_eq_ok] at h
      obtain ⟨total, htotal, rfl⟩ := h
      exact ⟨hput (hadd (hst.orders _) htotal), hst.legs⟩
  | some leg =>
      simp only [bind_eq_ok] at h
      obtain ⟨now, hnow, _, -, _, -, best, hbest, h⟩ := h
      have hlegs : ∀ key, 0 ≤ (((st.legFilled.insert (legHk f.orderId leg.1) (f.orderId, leg.1)
          now).get key).getD .zero).val := by
        intro key
        rw [OMap.get_insert]
        split
        · exact hadd (hst.legs _) hnow
        · exact hst.legs key
      cases best with
      | none => simp at h
      | some b =>
          rw [pure_eq_ok] at h
          subst h
          exact ⟨hput (comboUnits_nonneg hlegs (fun _ hb => by cases hb) hbest b rfl), hlegs⟩

theorem applyEvent_fillsNonneg {D : RustDecimal} {e : Event} {st st' : AccountState}
    (h : applyEvent (.code D) st e = .ok st') (hst : st.FillsNonneg) : st'.FillsNonneg := by
  obtain ⟨st₁, hstep, rfl⟩ := applyEvent_orderStep h
  have hsame : ∀ {st₂ : AccountState}, st₂.filledQuantity = st.filledQuantity →
      st₂.legFilled = st.legFilled → st₂.FillsNonneg := by
    intro st₂ hf hl
    refine ⟨fun id => ?_, fun key => ?_⟩
    · rw [AccountState.filled, hf]
      exact hst.orders id
    · rw [hl]
      exact hst.legs key
  cases hstep with
  | other same => exact hsame same.filledQuantity same.legFilled
  | created c hp h =>
      simp only [onOrdersCreated, bind_eq_ok, pure_eq_ok] at h
      obtain ⟨_, -, rfl⟩ := h
      exact hsame rfl rfl
  | submitted p hp h =>
      simp only [onOrderSubmitted, bind_eq_ok, pure_eq_ok] at h
      obtain ⟨_, -, _, -, rfl⟩ := h
      exact hsame rfl rfl
  | updated u hp h =>
      simp only [onOrderUpdated, bind_eq_ok, pure_eq_ok] at h
      obtain ⟨_, -, _, -, _, -, _, -, _, -, rfl⟩ := h
      exact hsame rfl rfl
  | moved c target hp ht h =>
      simp only [onOrderState, bind_eq_ok, pure_eq_ok] at h
      obtain ⟨_, -, _, -, rfl⟩ := h
      exact hsame rfl rfl
  | filled f hp h =>
      simp only [onFill, bind_eq_ok, pure_eq_ok] at h
      obtain ⟨_, -, leg, -, _, -, _, -, _, -, _, -, _, -, _, -, _, -, _, -, st₁, h₁, st₂, h₂, _, -, _, -,
        _, -, rfl⟩ := h
      have hrec : st₁.FillsNonneg := by
        refine recordFilled_nonneg ?_ h₁
        exact ⟨hst.orders, hst.legs⟩
      simp only [fillOrder, bind_eq_ok, pure_eq_ok] at h₂
      obtain ⟨_, -, _, -, moved, -, rfl⟩ := h₂
      constructor
      · intro id
        dsimp only [AccountState.filled]
        split
        · exact hrec.orders id
        · exact hrec.orders id
      · intro key
        dsimp only
        split
        · exact hrec.legs key
        · exact hrec.legs key

/-! ## Runs of one account -/

theorem run_fillsNonneg {D : RustDecimal} {es : List Event} {st st' : AccountState}
    (h : es.foldlM (applyEvent (.code D)) st = .ok st') (hst : st.FillsNonneg) : st'.FillsNonneg :=
  foldlM_invariant (fun _ _ _ _ hstep hst => applyEvent_fillsNonneg hstep hst) h hst

theorem run_leaves_new {es : List Event} {st st' : AccountState} {id : String}
    (h : es.foldlM (applyEvent A) st = .ok st')
    (hst : ∃ o, st.orders.get id = some o ∧ o.state ≠ .new) :
    ∃ o, st'.orders.get id = some o ∧ o.state ≠ .new := by
  refine foldlM_invariant (P := fun st => ∃ o, st.orders.get id = some o ∧ o.state ≠ .new)
    (fun st e st' _ hstep hst => ?_) h hst
  obtain ⟨p, hp, hnew⟩ := hst
  have hchange := applyEvent_change hstep id
  rw [hp] at hchange
  obtain ⟨o, ho⟩ := hchange.persists
  rw [ho] at hchange
  exact ⟨o, ho, hchange.leaves_new hnew⟩

theorem run_ended {es : List Event} {st st' : AccountState} {id : String} {o : Order}
    (h : es.foldlM (applyEvent A) st = .ok st') (ho : st.orders.get id = some o)
    (hend : o.state.Ended) :
    ∃ o', st'.orders.get id = some o' ∧ o'.state = o.state ∧
      ((st'.filled id = st.filled id ∧
          ((st.filled id).val ≤ o.quantity.val → (st.filled id).val ≤ o'.quantity.val)) ∨
        (o.state = .filled ∧ (∃ e ∈ es, ∃ f, e.payload = .fill f ∧ f.orderId = id) ∧
          (st'.filled id).val ≤ o'.quantity.val)) := by
  induction es generalizing st o with
  | nil =>
      cases h
      exact ⟨o, ho, rfl, Or.inl ⟨rfl, fun hle => hle⟩⟩
  | cons e es ih =>
      simp only [List.foldlM_cons, bind_eq_ok] at h
      obtain ⟨st₁, h₁, h⟩ := h
      obtain ⟨o₁, ho₁, hs₁, hstep⟩ := applyEvent_ended h₁ ho hend
      obtain ⟨o', ho', hs', hrun⟩ := ih h ho₁ (hs₁ ▸ hend)
      refine ⟨o', ho', hs'.trans hs₁, ?_⟩
      rcases hstep with ⟨heq₁, hle₁⟩ | ⟨hf, ⟨f, hp, hid⟩, hle₁⟩
      · rcases hrun with ⟨heq, hle⟩ | ⟨hf, ⟨x, hx, hfill⟩, hle⟩
        · refine Or.inl ⟨heq.trans heq₁, fun hle₀ => ?_⟩
          rw [← heq₁] at hle₁ hle₀ ⊢
          exact hle (hle₁ hle₀)
        · exact Or.inr ⟨hs₁ ▸ hf, ⟨x, List.mem_cons_of_mem _ hx, hfill⟩, hle⟩
      · have hmem : ∃ x ∈ e :: es, ∃ f, x.payload = .fill f ∧ f.orderId = id :=
          ⟨e, List.mem_cons_self, f, hp, hid⟩
        rcases hrun with ⟨heq, hle⟩ | ⟨-, -, hle⟩
        · exact Or.inr ⟨hf, hmem, heq ▸ hle hle₁⟩
        · exact Or.inr ⟨hf, hmem, hle⟩

theorem run_persists {es : List Event} {st st' : AccountState} {id : String}
    (h : es.foldlM (applyEvent A) st = .ok st') (hst : ∃ o, st.orders.get id = some o) :
    ∃ o, st'.orders.get id = some o := by
  refine foldlM_invariant (P := fun st => ∃ o, st.orders.get id = some o)
    (fun st e st' _ hstep hst => ?_) h hst
  obtain ⟨p, hp⟩ := hst
  have hchange := applyEvent_change hstep id
  rw [hp] at hchange
  exact hchange.persists

/-- A payload that names an account is filed under it. -/
theorem Event.accountId_eq (e : Event) {a : String} (h : e.payload.accountId? = some a) :
    a = e.account := by
  have hc := e.checked
  simp only [checkEvent, checkAccount, h, bind_eq_ok, refuseIf_eq_ok, not_not] at hc
  obtain ⟨_, -, _, -, _, -, _, -, _, -, _, -, _, hacc, -⟩ := hc
  exact hacc

theorem Event.created_account (e : Event) {o : Order} (h : o ∈ e.payload.createdOrders) :
    o.accountId = e.account := by
  have hc := e.checked
  simp only [checkEvent, bind_eq_ok, refuseIf_eq_ok] at hc
  obtain ⟨_, -, _, -, _, -, _, -, _, -, _, -, _, -, _, -, hall⟩ := hc
  simp only [List.any_eq_true, decide_eq_true_eq, not_exists, not_and, not_not] at hall
  exact hall o h

/-- Every order an account holds is stored under its own id and belongs to the account. -/
theorem run_order_ids {es : List Event} {st st' : AccountState} {a : String}
    (h : es.foldlM (applyEvent A) st = .ok st') (hes : ∀ e ∈ es, e.account = a)
    (hst : ∀ id o, st.orders.get id = some o → o.orderId = id ∧ o.accountId = a) :
    ∀ id o, st'.orders.get id = some o → o.orderId = id ∧ o.accountId = a := by
  refine foldlM_invariant
    (P := fun st => ∀ id o, st.orders.get id = some o → o.orderId = id ∧ o.accountId = a)
    (fun st e st' he hstep hst => ?_) h hst
  intro id o ho
  have hchange := applyEvent_change hstep id
  rw [ho] at hchange
  generalize hx : st.orders.get id = x at hchange
  cases hchange with
  | kept => exact hst id o hx
  | created _ _ hmem hid => exact ⟨hid, (e.created_account hmem).trans (hes e he)⟩
  | submitted _ o s hp hid =>
      exact ⟨hid, (e.accountId_eq (by rw [hp]; rfl)).trans (hes e he)⟩
  | updated p u hp hid hacc => exact ⟨hid, hacc.trans (hst id p hx).2⟩
  | moved p => exact hst id p hx
  | filled p => exact hst id p hx

end TradeEngine
