import TradeEngine.Oms.Lemmas.Plain

/-!
# Submission

An order goes to the venue from `NEW` only: its request and its pending marker are stored first, and
neither can be a replay, since either would have taken the order out of `NEW`.
-/

namespace TradeEngine.Oms

open Lib Relation

variable {A : Arith} {G : Ledger A → String → List Order → Prop} {K : Core A → Prop} {H : Host}

/-- The order as the ledger has it now, where the manager looks for it. -/
def Current (o : Order) (c : Core A) : Prop :=
  ∃ x, c.ledger.context? o.orderId = some x ∧ x.order = o

theorem Current.held {o : Order} {c : Core A} (h : Current o c) :
    c.ledger.held o.accountId o.orderId = some o := by
  obtain ⟨x, hx, rfl⟩ := h
  exact (Ledger.context_held hx).1

theorem Current.at {o : Order} {c : Core A} (h : Current o c) :
    c.ledger.At o.accountId o.orderId := by
  obtain ⟨x, hx, rfl⟩ := h
  exact ⟨x, hx, rfl⟩

theorem Current.of_context {id : String} {x : Context} {c : Core A}
    (h : c.ledger.context? id = some x) : Current x.order c :=
  ⟨x, (Ledger.context_held h).2.symm ▸ h, rfl⟩

theorem Current.of_getOrder {id : String} {o : Order} {c : Core A}
    (h : c.ledger.getOrder id = .ok o) : Current o c := by
  obtain ⟨x, hx, rfl⟩ := Ledger.getOrder_some h
  exact .of_context hx

theorem getOrder_current {id : String} {S T : Core A → Core A → Prop} :
    Walks World.core S T K (getOrder H id) fun o c => K c ∧ Current o c ∧ o.orderId = id := by
  refine getOrder_walks.post fun o c h => ⟨h.1, .of_getOrder h.2, ?_⟩
  obtain ⟨x, hx, rfl⟩ := Ledger.getOrder_some h.2
  exact (Ledger.context_held hx).2

/-! ## Replays of state events -/

theorem payloadEqual_stateChange {p : Obj} {c : OrderStateChange}
    (h : payloadEqual p (.stateChange c) = true) : p = .stateChange c := by
  cases p <;> simp only [payloadEqual, Bool.false_eq_true, beq_iff_eq] at h
  rw [h]

theorem payloadEqual_orderUpdated {p : Obj} {u : OrderUpdated}
    (h : payloadEqual p (.orderUpdated u) = true) :
    ∃ v, p = .orderUpdated v ∧ v.order.orderId = u.order.orderId ∧ v.order.state = u.order.state := by
  cases p <;> simp only [payloadEqual, Bool.false_eq_true, Bool.and_eq_true] at h
  rename_i v
  have hs := h.1.1
  simp only [Order.same, Bool.and_eq_true, beq_iff_eq] at hs
  exact ⟨v, rfl, by simp_all, by simp_all⟩

theorem Replayed.mem {c : Core A} {a : String} {kind : EventKind} {payload : Obj} {command : String}
    (h : Replayed c a kind payload command) : ∃ prior ∈ c.ledger.events, prior.account = a ∧
      prior.kind = kind ∧ payloadEqual prior.payload payload = true := by
  obtain ⟨prior, hprior, ha, hk, hp⟩ := h
  exact ⟨prior, List.mem_of_find?_eq_some hprior, ha, hk, hp⟩

theorem Replayed.leftNew_updated {c : Core A} {a command : String} {u : OrderUpdated}
    (h : Replayed c a .orderUpdated (.orderUpdated u) command) (hs : u.order.state ≠ .new) :
    c.ledger.LeftNew a u.order.orderId := by
  obtain ⟨prior, hmem, rfl, -, hp⟩ := h.mem
  obtain ⟨v, hv, hid, hstate⟩ := payloadEqual_orderUpdated hp
  exact hid ▸ Ledger.leftNew_of_updated hmem hv (hstate ▸ hs)

theorem Appended.at {c c' : Core A} {a id command : String} {kind : EventKind} {payload : Obj}
    (h : Appended c a kind payload command c') (hat : c.ledger.At a id) : c'.ledger.At a id := by
  obtain ⟨e, ha, -, -, happ⟩ := h.ledger
  exact hat.append happ ha

theorem Appended.extends {c c' : Core A} {a command : String} {kind : EventKind} {payload : Obj}
    (h : Appended c a kind payload command c') :
    c.ledger.events <+: c'.ledger.events ∧ c'.trace = c.trace := by
  obtain ⟨e, -, -, -, -, happ⟩ := h.stored
  exact ⟨Core.append_extends happ, (Core.append_fields happ).2⟩

/-- After its marker is stored, the order is pending. -/
theorem Appended.pending {c c' : Core A} {a command : String} {change : OrderStateChange}
    (h : Appended c a .orderPending (.stateChange change) command c') :
    c'.ledger.HeldIn a change.orderId .pendingUnknown := by
  obtain ⟨e, rfl, hk, hp, happ⟩ := h.ledger
  exact Ledger.append_moved happ hp (by rw [hk]; rfl)

/-! ## The pending marker -/

theorem markPending_spec (order : Order) {reason command a : String} {w : World A}
    (hat : w.core.ledger.At a order.orderId)
    (hst : ¬ w.core.ledger.HeldIn a order.orderId .pendingUnknown) :
    Prog.Post (fun _ w' => ∃ v,
        Appended w.core a .orderPending (.stateChange ⟨order.orderId, some reason, v⟩) command w'.core ∨
        Replayed w.core a .orderPending (.stateChange ⟨order.orderId, some reason, v⟩) command ∧
          w'.core = w.core)
      (fun _ w' => w'.core = w.core) (markPending H order reason command w) := by
  refine Prog.post_bind.mpr ((read_spec _ w).weaken (fun current w₁ h₁ => ?_) fun _ _ h => h)
  obtain ⟨h₁, hcur⟩ := h₁
  have hheld := hat.getOrder hcur
  have hids := Ledger.held_ids hheld
  rw [if_neg fun hs => hst ⟨current, hheld, hs⟩, ← h₁]
  refine Prog.post_bind.mpr ((read_spec _ w₁).weaken (fun x w₂ h₂ => ?_) fun _ _ h => h)
  rw [← h₂.1, hids.2, hids.1]
  refine Prog.post_bind.mpr ((append_spec _ _ _ _ w₂).weaken (fun _ w₃ h₃ => ?_) fun _ _ h => h)
  exact ⟨x.venueOrderId, h₃⟩

/-! ## Requests -/

theorem HeldIn.unique {l : Ledger A} {a id : String} {s t : OrderState} (hs : l.HeldIn a id s)
    (ht : l.HeldIn a id t) : s = t := by
  obtain ⟨o, ho, rfl⟩ := hs
  obtain ⟨p, hp, rfl⟩ := ht
  rw [ho] at hp
  cases hp
  rfl

/-- What is true once a `NEW` order has its request and its marker in the ledger. -/
structure Marked (a id : String) (c : Core A) : Prop where
  pending : c.ledger.HeldIn a id .pendingUnknown
  unsent : c.Unsent a id
  found : c.ledger.At a id
  exclusive : c.ledger.Separated → c.ledger.Exclusive a id

/-- A `NEW` order may be requested for any reason but a trigger's, for which it has to be alone. -/
structure Ready (order : Order) (reason : String) (c : Core A) : Prop where
  current : Current order c
  new : order.state = .new
  alone : (∀ t, reason ≠ s!"Emulated {OrderType.value t} submission requested") ∨
    (c.ledger.Separated → c.ledger.Alone order)

theorem Ledger.Separated.before {l l' : Ledger A} (h : l'.Separated) (hl : l.events <+: l'.events) :
    l.Separated := by
  intro a b id o p ho hp
  obtain ⟨o', ho'⟩ := Ledger.held_mono ⟨o, ho⟩ hl
  obtain ⟨p', hp'⟩ := Ledger.held_mono ⟨p, hp⟩ hl
  exact h a b id o' p' ho' hp'

/-- An order alone stays so while only it is written to, under its parent and group. -/
theorem Ledger.Alone.written {c c' : Core A} {o o' : Order} (h : c.ledger.Alone o)
    (hother : ∀ id, id ≠ o.orderId → c'.ledger.held o.accountId id = c.ledger.held o.accountId id)
    (hid : o'.orderId = o.orderId) (hacc : o'.accountId = o.accountId)
    (hparent : o'.parentOrderId = o.parentOrderId) (hgroup : o'.ocoGroup = o.ocoGroup) :
    c'.ledger.Alone o' := by
  intro p hp
  simp only [siblings, List.mem_filter, hid, hacc, hparent, hgroup] at hp
  obtain ⟨hmem, hsib⟩ := hp
  refine h p (List.mem_filter.mpr ⟨?_, hsib⟩)
  obtain ⟨e, he, rfl⟩ := List.mem_map.mp hmem
  have hget := OMap.get_of_mem he
  have hne : e.1 ≠ o.orderId := by
    have hpid := (Ledger.held_ids (l := c'.ledger) (a := o.accountId) hget).1
    simp only [Bool.and_eq_true, decide_eq_true_eq] at hsib
    exact hpid ▸ hsib.1.1.1.1
  exact OMap.mem_values_of_get ((hother e.1 hne).symm.trans hget)

/-- From `NEW`, a request and its marker are stored; a failure may leave the request alone. -/
theorem requestSubmission_spec {order : Order} {reason requestId pendingReason pendingId : String}
    {w : World A} (hcur : Current order w.core) (hnew : order.state = .new) :
    let request : Obj := .orderUpdated ⟨{ order with state := .submitted }, reason, none⟩
    Prog.Post (fun _ w' => ∃ c v,
        Appended w.core order.accountId .orderUpdated request requestId c ∧
        Appended c order.accountId .orderPending
          (.stateChange ⟨order.orderId, some pendingReason, v⟩) pendingId w'.core)
      (fun _ w' => w'.core = w.core ∨
        Appended w.core order.accountId .orderUpdated request requestId w'.core)
      (requestSubmission H order reason requestId pendingReason pendingId w) := by
  have hnewIn : w.core.ledger.HeldIn order.accountId order.orderId .new := ⟨order, hcur.held, hnew⟩
  refine Prog.post_bind.mpr ((append_spec _ _ _ _ w).weaken (fun _ w₁ h₁ => ?_) fun _ _ h => Or.inl h)
  rcases h₁ with h₁ | ⟨hrep, -⟩
  swap
  · exact absurd hnewIn (hrep.leftNew_updated (fun h => by cases h)).not_new
  obtain ⟨request, hracc, hrkind, hrpay, -, hreq⟩ := h₁.stored
  have hsub : w₁.core.ledger.HeldIn order.accountId order.orderId .submitted :=
    ⟨_, hracc ▸ Ledger.append_updated (Core.append_fields hreq).1 hrpay, rfl⟩
  refine (markPending_spec { order with state := .submitted } (h₁.at hcur.at)
    fun hp => absurd (HeldIn.unique hsub hp) (by decide)).weaken (fun _ w₂ h₂ => ?_) fun _ w₂ h₂ => ?_
  swap
  · rw [h₂]
    exact Or.inr h₁
  obtain ⟨v, h₂ | ⟨hrep, -⟩⟩ := h₂
  · exact ⟨w₁.core, v, h₁, h₂⟩
  · -- a stored marker of this order: not before the request, and the request is no marker
    obtain ⟨prior, hmem, hacc, hk, hp⟩ := hrep.mem
    obtain ⟨ev, -, hevkind, -, -, hl, -⟩ := Ledger.append_state (Core.append_fields hreq).1
    rw [hl] at hmem
    rcases List.mem_append.mp hmem with hmem | hmem
    · have hleft := Ledger.leftNew_of_moved hmem (payloadEqual_stateChange hp) (by rw [hk]; rfl)
        (by decide)
      rw [hacc] at hleft
      exact absurd hnewIn hleft.not_new
    · rw [List.mem_singleton.mp hmem, hevkind, hrkind] at hk
      cases hk

/-- A request of another reason is no trigger's, and there was none while the order was `NEW`. -/
theorem Ready.not_routed {order : Order} {reason requestId pendingReason pendingId : String}
    {v : Option String} {c c₁ c₂ : Core A} (h : Ready order reason c)
    (hreason : ∀ t, reason ≠ s!"Emulated {OrderType.value t} submission requested")
    (h₁ : Appended c order.accountId .orderUpdated
      (.orderUpdated ⟨{ order with state := .submitted }, reason, none⟩) requestId c₁)
    (h₂ : Appended c₁ order.accountId .orderPending
      (.stateChange ⟨order.orderId, some pendingReason, v⟩) pendingId c₂) :
    ¬ c₂.ledger.Routed order.accountId order.orderId := by
  rintro ⟨ev, hev, hacc, u, t, hpay, hid, hsub, hwhy⟩
  obtain ⟨e₁, -, -, hp₁, happ₁⟩ := h₁.ledger
  obtain ⟨e₂, -, -, hp₂, happ₂⟩ := h₂.ledger
  obtain ⟨ev₁, -, -, hev₁, -, hl₁, -⟩ := Ledger.append_state happ₁
  obtain ⟨ev₂, -, -, hev₂, -, hl₂, -⟩ := Ledger.append_state happ₂
  rw [hl₂, hl₁, List.append_assoc] at hev
  rcases List.mem_append.mp hev with hev | hev
  · -- an earlier request would have taken the order out of `NEW`
    have hleft := Ledger.leftNew_of_updated hev hpay (by rw [hsub]; decide)
    rw [hacc, hid] at hleft
    exact hleft.not_new ⟨order, h.current.held, h.new⟩
  · simp only [List.cons_append, List.nil_append, List.mem_cons, List.not_mem_nil, or_false] at hev
    rcases hev with rfl | rfl
    · rw [hev₁, hp₁] at hpay
      cases hpay
      exact hreason t hwhy
    · rw [hev₂, hp₂] at hpay
      cases hpay

/-- With its request and its marker stored, the order went out by a trigger only if it is alone. -/
theorem Ready.exclusive {order : Order} {reason requestId pendingReason pendingId : String}
    {v : Option String} {c c₁ c₂ : Core A} (h : Ready order reason c)
    (h₁ : Appended c order.accountId .orderUpdated
      (.orderUpdated ⟨{ order with state := .submitted }, reason, none⟩) requestId c₁)
    (h₂ : Appended c₁ order.accountId .orderPending
      (.stateChange ⟨order.orderId, some pendingReason, v⟩) pendingId c₂)
    (hsep : c₂.ledger.Separated) : c₂.ledger.Exclusive order.accountId order.orderId := by
  intro hrouted o ho
  rcases h.alone with hplain | halone
  · exact absurd hrouted (h.not_routed hplain h₁ h₂)
  · have hheld := h₂.moves rfl h₁.updates
    rw [ho] at hheld
    cases hheld
    have hwrites : ∀ id, id ≠ order.orderId →
        c₂.ledger.held order.accountId id = c.ledger.held order.accountId id := by
      intro id hid
      have hw₁ : Write (· = order.orderId) c c₁ := h₁.writes rfl fun _ _ hs => setsState_updated hs
      have hw₂ : Write (· = order.orderId) c₁ c₂ := h₂.writes rfl fun _ _ hs => setsState_change hs
      exact (hw₂.held_of_not hid _).trans (hw₁.held_of_not hid _)
    have hext := h₁.extends.1.trans h₂.extends.1
    exact (halone (hsep.before hext)).written hwrites rfl rfl rfl rfl

theorem requestSubmission_walks {order : Order} {reason requestId pendingReason pendingId : String}
    (hreason : submissionReasons.contains reason = true) :
    Run G (Ready order reason)
      (requestSubmission H order reason requestId pendingReason pendingId)
      fun _ => Marked order.accountId order.orderId := by
  intro w hready
  have hcur := hready.current
  have hnew := hready.new
  refine (requestSubmission_spec hcur hnew).weaken (fun _ w' h => ?_) fun _ w' h => ?_
  · obtain ⟨c, v, h₁, h₂⟩ := h
    obtain ⟨request, hracc, -, hrpay, -, hreq⟩ := h₁.stored
    obtain ⟨marker, hmacc, hmkind, hmpay, -, hmark⟩ := h₂.stored
    refine ⟨.single (.mark hrpay hmpay hmkind rfl (hmacc.trans hracc.symm) hreq hmark), ?_⟩
    refine ⟨h₂.pending, ⟨w.core.ledger, ⟨order, hcur.held, hnew⟩, ?_⟩, h₂.at (h₁.at hcur.at),
      hready.exclusive h₁ h₂⟩
    rw [h₂.extends.2, h₁.extends.2]
    exact w.core.extends_trace
  · rcases h with h | h
    · rw [h]
      exact Halts.refl _
    · -- the request is in the ledger; without its marker the walk is cut short
      obtain ⟨request, -, -, hrpay, -, hreq⟩ := h.stored
      exact ⟨w.core, .refl, Or.inr ⟨request, by rw [hrpay]; exact hreason, hreq⟩⟩

/-! ## Sending -/

/-- What is true once the venue has been asked to take the order. -/
structure Sent (a id : String) (c : Core A) : Prop where
  received : c.Received a id
  left : c.ledger.LeftNew a id
  found : c.ledger.At a id

theorem sendOrder_walks {order : Order} {venue : VenueOrder} :
    Run G (Marked order.accountId order.orderId) (sendOrder H order venue)
      fun _ => Sent order.accountId order.orderId := by
  refine (broker_walks (.submit order.accountId order.orderId) fun c hc => ⟨hc.pending, hc.unsent, hc.exclusive⟩).post ?_
  rintro _ c ⟨c₀, hc, rfl⟩
  obtain ⟨o, ho, hs⟩ := hc.pending
  refine ⟨Or.inl ⟨⟨_, c₀.ledger⟩, List.mem_append_right _ List.mem_cons_self, Or.inl rfl⟩, ?_, hc.found⟩
  exact ⟨o, ho, by rw [hs]; decide⟩

theorem Sent.append {a id command : String} {c c' : Core A} {kind : EventKind} {payload : Obj}
    (h : Sent a id c) (happ : Appended c a kind payload command c') : Sent a id c' where
  received := h.received.mono happ.extends.1 (by rw [happ.extends.2])
  left := h.left.mono happ.extends.1
  found := happ.at h.found

theorem recordSubmitAck_walks {order : Order} {ack : VenueAck} {command : String} :
    Run G (Sent order.accountId order.orderId) (recordSubmitAck H order ack command)
      fun _ => Sent order.accountId order.orderId := by
  refine Walks.lift.bind fun plan => ?_
  refine Walks.bind (Q := fun _ => Sent order.accountId order.orderId) ?_ fun _ =>
    Walks.pure fun _ hc => hc
  refine append_walks (fun c c' hc h => ⟨h.step ⟨rfl, fun id s hs _ => ?_⟩, hc.1.append h⟩)
    fun _ hc _ => hc.1
  simp only [setsState, Option.map_eq_some_iff, Prod.mk.injEq] at hs
  obtain ⟨_, -, rfl, -⟩ := hs
  exact Or.inl hc.1.received

theorem Sent.getOrder {id a : String} {o : Order} {c : Core A} (h : Sent a id c)
    (ho : c.ledger.getOrder id = .ok o) : Current o c ∧ o.state ≠ .new := by
  refine ⟨.of_getOrder ho, ?_⟩
  obtain ⟨p, hp, hne⟩ := h.left
  rw [h.found.getOrder ho] at hp
  cases hp
  exact hne

/-- Send, record what the venue answered, read the order back. -/
theorem send_walks {order : Order} {venue : VenueOrder} {command : String} {unknown : LErr} :
    Run G (Marked order.accountId order.orderId) (do
        let answer ← sendOrder H order venue
        match answer with
        | none => Prog.fail unknown
        | some ack => do
          recordSubmitAck H order ack command
          getOrder H order.orderId)
      fun o c => Current o c ∧ o.state ≠ .new := by
  refine sendOrder_walks.bind fun answer => ?_
  cases answer with
  | none => exact Walks.fail
  | some ack =>
      refine recordSubmitAck_walks.bind fun _ => ?_
      exact getOrder_walks.post fun o c h => h.1.getOrder h.2

end TradeEngine.Oms
