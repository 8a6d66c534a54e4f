import TradeEngine.Oms.Flow
import TradeEngine.Oms.Lemmas.Steps

/-!
# What a command writes to

Apart from fills and new orders, the manager writes to orders it has looked up, one id at a time. A
walk of such writes leaves every other order alone, and with it the fills and the children of an
entry.
-/

namespace TradeEngine.Oms

open Lib Relation

variable {A : Arith}

namespace Ledger

/-- A held order was held before, or is one the event brings. -/
theorem held_of_append {l l' : Ledger A} {e : EventFields} (h : l.append e = .ok l') {a id : String}
    {o : Order} (ho : l'.held a id = some o) : (∃ p, l.held a id = some p) ∨
      a = e.account ∧ bringsNone e.payload = false ∧
        ∀ x, e.payload = .ordersCreated x → o ∈ x.orders ∧ o.orderId = id := by
  rcases append_change h a id with hsame | ⟨ha, ev, -, -, hpay, -, hc⟩
  · exact Or.inl ⟨o, hsame ▸ ho⟩
  · rw [ho] at hc
    generalize l.held a id = x at hc
    cases hc with
    | kept => exact Or.inl ⟨o, rfl⟩
    | created _ _ hmem hid =>
        rw [hpay] at hmem
        refine Or.inr ⟨ha, ?_, fun y hy => ⟨?_, hid⟩⟩
        · cases hp : e.payload <;> simp [hp, Obj.createdOrders] at hmem
          rfl
        · rw [hy] at hmem
          exact hmem
    | submitted _ _ _ hp =>
        rw [hpay] at hp
        refine Or.inr ⟨ha, by rw [hp]; rfl, fun y hy => ?_⟩
        rw [hp] at hy
        cases hy
    | updated p => exact Or.inl ⟨p, rfl⟩
    | moved p => exact Or.inl ⟨p, rfl⟩
    | filled p => exact Or.inl ⟨p, rfl⟩

end Ledger

/-- A payload that writes an order's terms or state, or an emulation's. -/
def plain : Obj → Bool
  | .orderUpdated _ | .stateChange _ | .emulated _ => true
  | _ => false

/-- One write to an order whose id is in `P`, or a note. -/
inductive Write (P : String → Prop) : Core A → Core A → Prop where
  | event {c c' : Core A} {e : EventFields} (hplain : plain e.payload = true)
      (hP : ∀ id s, setsState e.kind e.payload = some (id, s) → P id)
      (h : c.append e = .ok c') : Write P c c'
  | note (c : Core A) (act : Act) : Write P c (c.note act)

/-! ## One write -/

/-- A plain event keeps the fills, and writes over one order at most, which keeps its parent
and its group. -/
theorem applyEvent_plain {e : Event} {st st' : AccountState} (hplain : plain e.payload = true)
    (h : applyEvent A st e = .ok st') : st'.filledQuantity = st.filledQuantity ∧
      (st'.orders = st.orders ∨ ∃ id p o, st.orders.get id = some p ∧
        st'.orders = st.orders.put id o ∧
        (o.parentOrderId = p.parentOrderId ∧ o.ocoGroup = p.ocoGroup) ∧
        setsState e.kind e.payload = some (id, o.state)) := by
  obtain ⟨st₁, hstep, rfl⟩ := applyEvent_orderStep h
  dsimp only
  cases hstep with
  | other same => exact ⟨same.filledQuantity, Or.inl same.orders⟩
  | created c hp => rw [hp] at hplain; cases hplain
  | submitted o hp => rw [hp] at hplain; cases hplain
  | filled f hp => rw [hp] at hplain; cases hplain
  | updated u hp h =>
      refine ⟨(onOrderUpdated_filled h).2, Or.inr ?_⟩
      simp only [onOrderUpdated, bind_eq_ok, pure_eq_ok, refuseIf_eq_ok] at h
      obtain ⟨p, hprev, _, hid, _, -, _, -, _, -, rfl⟩ := h
      obtain ⟨-, -, -, -, hkin⟩ := identityChanged_false hid
      exact ⟨u.order.orderId, p, u.order, requireOrder_ok hprev, rfl, hkin, by rw [hp]; rfl⟩
  | moved c target hp ht h =>
      simp only [onOrderState, bind_eq_ok, pure_eq_ok] at h
      obtain ⟨p, hprev, moved, hmoved, rfl⟩ := h
      obtain ⟨rfl, -⟩ := transitionTo_ok hmoved
      refine ⟨rfl, Or.inr ⟨c.orderId, p, _, requireOrder_ok hprev, rfl, ⟨rfl, rfl⟩, ?_⟩⟩
      rw [hp, setsState, ht]
      rfl

theorem bringsNone_of_plain {p : Obj} (h : plain p = true) : bringsNone p = true := by
  cases p <;> first | rfl | cases h

/-- Where an order is found does not change as long as none is brought. -/
theorem Ledger.At.append_plain {l l' : Ledger A} {a id : String} {e : EventFields} (h : l.At a id)
    (hplain : plain e.payload = true) (happ : l.append e = .ok l') : l'.At a id := by
  by_cases ha : e.account = a
  · exact h.append happ ha
  obtain ⟨c, hc, hacc⟩ := h
  obtain ⟨ev, -, -, -, -, -, -, hs⟩ := append_state happ
  obtain ⟨pre, x, post, hitems, hx, hpre⟩ := OMap.exists_first hc
  have hmem : ∀ {y}, y ∈ pre ++ x :: post → l.state y.1 = y.2.2 := fun hy =>
    state_of_get (OMap.get_of_mem (hitems ▸ hy))
  have hkey : x.1 = a := by
    have hheld : l.held x.1 id = some c.order := by
      rw [held, hmem (List.mem_append_right _ List.mem_cons_self)]
      exact (contextIn_some hx).1
    exact (held_ids hheld).2.symm.trans hacc
  refine ⟨c, ?_, hacc⟩
  rw [context?, hs]
  refine OMap.findSome?_put_ne hitems hpre hx (fun heq => ha (heq.symm.trans hkey)) fun hin => ?_
  -- an account before the first one held nothing under the id, and was brought nothing
  obtain ⟨y, hy, hya⟩ := List.mem_map.mp hin
  have hnone : l.held e.account id = none := by
    have hnot := hpre y hy
    simp only [contextIn, Option.map_eq_none_iff] at hnot
    rw [held, ← hya, hmem (List.mem_append_left _ hy)]
    exact hnot
  cases hget : (l'.state e.account).orders.get id with
  | none => simp [contextIn, hget]
  | some o =>
      rcases held_of_append happ (a := e.account) hget with ⟨p, hp⟩ | ⟨-, hb, -⟩
      · rw [hnone] at hp
        cases hp
      · rw [bringsNone_of_plain hplain] at hb
        cases hb

namespace Write

variable {P : String → Prop} {c c' : Core A}

theorem «extends» (h : Write P c c') : c.ledger.events <+: c'.ledger.events := by
  cases h with
  | event _ _ h => exact Core.append_extends h
  | note => exact List.prefix_rfl

theorem mono {Q : String → Prop} (hPQ : ∀ id, P id → Q id) (h : Write P c c') : Write Q c c' := by
  cases h with
  | event hplain hP h => exact .event hplain (fun id s hs => hPQ id (hP id s hs)) h
  | note act => exact .note _ _

theorem «at» {a id : String} (h : Write P c c') (hat : c.ledger.At a id) : c'.ledger.At a id := by
  cases h with
  | event hplain _ h => exact hat.append_plain hplain (Core.append_fields h).1
  | note => exact hat

/-- What a write does to one account. -/
theorem state (h : Write P c c') (a : String) :
    (c'.ledger.state a).filledQuantity = (c.ledger.state a).filledQuantity ∧
      ((c'.ledger.state a).orders = (c.ledger.state a).orders ∨ ∃ id p o, P id ∧
        (c.ledger.state a).orders.get id = some p ∧
        (c'.ledger.state a).orders = (c.ledger.state a).orders.put id o ∧
        o.parentOrderId = p.parentOrderId ∧ o.ocoGroup = p.ocoGroup) := by
  cases h with
  | note => exact ⟨rfl, Or.inl rfl⟩
  | @event _ e hplain hP h =>
      have happ := (Core.append_fields h).1
      by_cases ha : a = e.account
      · subst ha
        obtain ⟨ev, -, hkind, hpay, -, -, hstep, -⟩ := Ledger.append_state happ
        obtain ⟨hf, hsame | ⟨id, p, o, hp, ho, hpar, hset⟩⟩ :=
          applyEvent_plain (hpay ▸ hplain) hstep
        · exact ⟨hf, Or.inl hsame⟩
        · rw [hkind, hpay] at hset
          exact ⟨hf, Or.inr ⟨id, p, o, hP id _ hset, hp, ho, hpar⟩⟩
      · rw [Ledger.append_state_ne happ ha]
        exact ⟨rfl, Or.inl rfl⟩

theorem filled (h : Write P c c') (a id : String) :
    (c'.ledger.state a).filled id = (c.ledger.state a).filled id := by
  rw [AccountState.filled, (h.state a).1, AccountState.filled]

theorem held_of_not {id : String} (h : Write P c c') (hid : ¬ P id) (a : String) :
    c'.ledger.held a id = c.ledger.held a id := by
  rcases (h.state a).2 with hsame | ⟨id', p, o, hP, -, ho, -⟩
  · rw [Ledger.held, hsame, Ledger.held]
  · rw [Ledger.held, ho, OMap.get_put_ne _ _ fun heq => hid (by rw [heq]; exact hP), Ledger.held]

/-- The exits of an entry are the same, under the same ids. -/
theorem children_ids (h : Write P c c') (a entry : String) :
    (children entry (c'.ledger.state a).orders.values).map (·.orderId) =
      (children entry (c.ledger.state a).orders.values).map (·.orderId) := by
  have hread : ∀ orders : List Order, (children entry orders).map (·.orderId) =
      ((orders.map fun o => (o.orderId, o.parentOrderId)).filter (·.2 = some entry)).map (·.1) := by
    intro orders
    induction orders with
    | nil => rfl
    | cons o orders ih =>
        by_cases ho : o.parentOrderId = some entry
        · simpa [children, ho] using ih
        · simpa [children, ho] using ih
  rw [hread, hread]
  rcases (h.state a).2 with hsame | ⟨id, p, o, -, hp, ho, hpar, -⟩
  · rw [hsame]
  · have hid : o.orderId = p.orderId := by
      have ho' : c'.ledger.held a id = some o := by rw [Ledger.held, ho, OMap.get_put_self]
      rw [(Ledger.held_ids ho').1, (Ledger.held_ids (l := c.ledger) hp).1]
    rw [ho, OMap.map_values_put _ hp (by rw [hid, hpar])]

/-- The other orders of a group are the same, under the same ids. -/
theorem sibling_ids (h : Write P c c') (a : String) (x : Order) :
    (siblings x (c'.ledger.state a).orders.values).map (·.orderId) =
      (siblings x (c.ledger.state a).orders.values).map (·.orderId) := by
  have hread : ∀ orders : List Order, (siblings x orders).map (·.orderId) =
      ((orders.map fun o => (o.orderId, o.parentOrderId, o.ocoGroup)).filter fun k =>
        k.1 ≠ x.orderId && x.parentOrderId.isSome && x.ocoGroup.isSome &&
          k.2.1 = x.parentOrderId && k.2.2 = x.ocoGroup).map (·.1) := by
    intro orders
    rw [List.filter_map, List.map_map]
    rfl
  rw [hread, hread]
  rcases (h.state a).2 with hsame | ⟨id, p, o, -, hp, ho, hpar, hgroup⟩
  · rw [hsame]
  · have hid : o.orderId = p.orderId := by
      have ho' : c'.ledger.held a id = some o := by rw [Ledger.held, ho, OMap.get_put_self]
      rw [(Ledger.held_ids ho').1, (Ledger.held_ids (l := c.ledger) hp).1]
    rw [ho, OMap.map_values_put _ hp (by rw [hid, hpar, hgroup])]

end Write

/-! ## Walks of writes -/

abbrev Writes (A : Arith) (P : String → Prop) {α : Type} (K : Core A → Prop) (p : M A α)
    (Q : α → Core A → Prop) : Prop := Walks World.core (Write P) (Write P) K p Q

section Paths

variable {P : String → Prop}

theorem stable_filled {a id : String} {q : Money} :
    Stable (Write P) fun c : Core A => (c.ledger.state a).filled id = q :=
  fun _ _ h hc => (h.filled a id).trans hc

theorem stable_held {a id : String} {x : Option Order} (hid : ¬ P id) :
    Stable (Write P) fun c : Core A => c.ledger.held a id = x :=
  fun _ _ h hc => (h.held_of_not hid a).trans hc

theorem stable_at {a id : String} : Stable (Write P) fun c : Core A => c.ledger.At a id :=
  fun _ _ h hc => h.at hc

theorem stable_children {a entry : String} {ids : List String} : Stable (Write P) fun c : Core A =>
    (children entry (c.ledger.state a).orders.values).map (·.orderId) = ids :=
  fun _ _ h hc => (h.children_ids a entry).trans hc

/-- A property of writes is kept by a walk, however it ends. -/
theorem Walks.reached {α : Type} {K I : Core A → Prop} {p : M A α} {Q : α → Core A → Prop}
    (h : Writes A P K p Q) (hI : Stable (Write P) I) {w : World A} (hw : K w.core) (hi : I w.core) :
    I (p w).2.core := by
  have hp := h w hw
  revert hp
  rcases p w with ⟨e | x, w'⟩
  · rintro ⟨m, hm, rfl | hlast⟩
    · exact hI.path hm hi
    · exact hI _ _ hlast (hI.path hm hi)
  · exact fun hp => hI.path hp.1 hi

end Paths

section Functions

variable {P : String → Prop} {K : Core A → Prop} {H : Host} {α : Type}

/-- A plain append, by what it leaves when it is stored and when it is a replay. -/
theorem append_writes {account : String} {kind : EventKind} {payload : Obj} {command : String}
    {Q : Core A → Prop} (hplain : plain payload = true)
    (hP : ∀ id s, setsState kind payload = some (id, s) → P id)
    (happ : ∀ c c', K c → Appended c account kind payload command c' → Q c')
    (hrep : ∀ c, K c → Replayed c account kind payload command → Q c) :
    Writes A P K (append H account kind payload command) fun _ => Q := by
  refine append_walks (fun c c' hc h => ⟨?_, happ c c' hc h⟩) hrep
  obtain ⟨e, rfl, rfl, rfl, -, hstored⟩ := h.stored
  exact .event hplain hP hstored

/-- A plain append, for what every write keeps. -/
theorem append_keeping {account : String} {kind : EventKind} {payload : Obj} {command : String}
    (hplain : plain payload = true) (hP : ∀ id s, setsState kind payload = some (id, s) → P id)
    (hK : Stable (Write P) K) : Writes A P K (append H account kind payload command) fun _ => K := by
  refine append_writes hplain hP (fun c c' hc h => ?_) fun _ hc _ => hc
  obtain ⟨e, rfl, rfl, rfl, -, hstored⟩ := h.stored
  exact hK _ _ (.event hplain hP hstored) hc

theorem setsState_updated {kind : EventKind} {u : OrderUpdated} {id : String} {s : OrderState}
    (h : setsState kind (.orderUpdated u) = some (id, s)) : id = u.order.orderId := by
  cases h
  rfl

theorem setsState_change {kind : EventKind} {x : OrderStateChange} {id : String} {s : OrderState}
    (h : setsState kind (.stateChange x) = some (id, s)) : id = x.orderId := by
  simp only [setsState, Option.map_eq_some_iff, Prod.mk.injEq] at h
  obtain ⟨_, -, rfl, -⟩ := h
  rfl

/-- A recorded refusal writes to no order. -/
theorem refuse_writes {order : Order} {reason command : String} (hK : Stable (Write P) K) :
    Writes A P K (refuse H order reason command) fun _ => K :=
  append_keeping rfl (fun _ _ h => by cases h) hK

theorem plannedRefusal_writes {order : Order} {mode : Refusal} {command : Option String}
    {Q : α → Core A → Prop} : Writes A P K (plannedRefusal H order mode command) Q := by
  refine Walks.bind (Q := fun _ _ => True) ?_ fun _ => Walks.fail
  exact (refuse_writes fun _ _ _ _ => trivial).pre fun _ _ => trivial

/-- A write that asks nothing and promises nothing else. -/
abbrev Touch (A : Arith) (P : String → Prop) {α : Type} (p : M A α) : Prop :=
  Writes A P (fun _ => True) p fun _ _ => True

theorem Touch.over {p : M A α} (h : Touch A P p) : Writes A P K p fun _ _ => True :=
  h.pre fun _ _ => trivial

theorem Touch.of_still {p : M A α} (h : Still World.core p) : Touch A P p := Walks.still h

theorem append_touch {account : String} {kind : EventKind} {payload : Obj} {command : String}
    (hplain : plain payload = true) (hP : ∀ id s, setsState kind payload = some (id, s) → P id) :
    Touch A P (append H account kind payload command) :=
  append_keeping hplain hP fun _ _ _ _ => trivial

theorem triggerOrderType_writes {order : Order} :
    Writes A P K (triggerOrderType H order) fun _ => K := by
  refine (Walks.still still_call).bind fun caps => ?_
  split
  · exact Walks.pure fun _ hc => hc
  · exact plannedRefusal_writes

theorem requireTif_writes {order : Order} {venueType : Option OrderType} :
    Writes A P K (requireTif H order venueType) fun _ => K := by
  refine (Walks.still still_call).bind fun caps => (Walks.still still_lift).bind fun unsupported => ?_
  exact Walks.ite (fun _ => plannedRefusal_writes) fun _ => Walks.pure fun _ hc => hc

theorem requireNative_writes {order : Order} : Writes A P K (requireNative H order) fun _ => K := by
  refine (Walks.still (still_call.bind fun _ => still_pure)).bind fun native => ?_
  exact Walks.ite (fun _ => Walks.pure fun _ hc => hc) fun _ => plannedRefusal_writes

theorem note_writes {act : Act} (hK : ∀ c, K c → K (c.note act)) :
    Writes A P K (note act) fun _ => K :=
  fun _ hw => ⟨.single (.note _ _), hK _ hw⟩

theorem broker_writes {act : Act} {f : Nat → Net} (hK : ∀ c, K c → K (c.note act)) :
    Writes A P K (broker H act f) fun answer c => K c ∧ ∀ ack, answer = some ack → ∃ n, f n = .ok ack := by
  refine call_walks.bind fun answer => ?_
  have hnote : Writes A P (fun c => K c ∧ ∃ n, f n = answer) (note act)
      fun _ c => K c ∧ ∃ n, f n = answer := note_writes fun c hc => ⟨hK c hc.1, hc.2⟩
  refine hnote.bind fun _ => ?_
  cases answer with
  | ok ack =>
      refine Walks.pure fun c hc => ⟨hc.1, fun ack' h => ?_⟩
      cases h
      exact hc.2
  | failed => exact Walks.pure fun c hc => ⟨hc.1, fun _ h => by cases h⟩
  | raised => exact Walks.fail

theorem Appended.ledger {c c' : Core A} {a command : String} {kind : EventKind} {payload : Obj}
    (h : Appended c a kind payload command c') : ∃ e : EventFields, e.account = a ∧ e.kind = kind ∧
      e.payload = payload ∧ c.ledger.append e = .ok c'.ledger := by
  obtain ⟨e, ha, hk, hp, -, happ⟩ := h.stored
  exact ⟨e, ha, hk, hp, (Core.append_fields happ).1⟩

/-- After a state event is stored, the order is in its target. -/
theorem Appended.moves {c c' : Core A} {a command : String} {kind : EventKind}
    {x : OrderStateChange} {target : OrderState} {p : Order}
    (h : Appended c a kind (.stateChange x) command c') (ht : stateTarget kind = some target)
    (hp : c.ledger.held a x.orderId = some p) :
    c'.ledger.held a x.orderId = some { p with state := target } := by
  obtain ⟨e, rfl, rfl, hpay, happ⟩ := h.ledger
  obtain ⟨ev, -, hkind, hevpay, -, -, hstep, -⟩ := Ledger.append_state happ
  obtain ⟨q, hq, ho⟩ := applyEvent_moves (hevpay.trans hpay) (hkind ▸ ht) hstep
  rw [show c.ledger.held e.account x.orderId = some q from hq] at hp
  cases hp
  exact ho

theorem Appended.updates {c c' : Core A} {a command : String} {u : OrderUpdated}
    (h : Appended c a .orderUpdated (.orderUpdated u) command c') :
    c'.ledger.held a u.order.orderId = some u.order := by
  obtain ⟨e, rfl, -, hpay, happ⟩ := h.ledger
  exact Ledger.append_updated happ hpay

theorem Appended.writes {c c' : Core A} {a command : String} {kind : EventKind} {payload : Obj}
    (h : Appended c a kind payload command c') (hplain : plain payload = true)
    (hP : ∀ id s, setsState kind payload = some (id, s) → P id) : Write P c c' := by
  obtain ⟨e, rfl, rfl, rfl, -, hstored⟩ := h.stored
  exact .event hplain hP hstored

end Functions

end TradeEngine.Oms
