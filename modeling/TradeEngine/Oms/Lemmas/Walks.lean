import TradeEngine.Oms.Lemmas.Cancels

/-!
# Every command is a walk

One lemma per function of the flow, from what it needs to what it promises. A function whose lemma
asks nothing walks from anywhere, and then keeps whatever every step keeps.
-/

namespace TradeEngine.Oms

open Lib Relation

variable {A : Arith} {G : Ledger A → String → List Order → Prop} {K : Core A → Prop} {H : Host}
  {α : Type}

/-! ## Plumbing -/

theorem findOrder_walks {id : String} {S T : Core A → Core A → Prop} :
    Walks World.core S T K (findOrder H id) fun o c =>
    K c ∧ (o = none → c.ledger.context? id = none) ∧ ∀ p, o = some p → Current p c ∧ p.orderId = id := by
  refine read_walks.post fun o c h => ⟨h.1, ?_, ?_⟩
  · rintro rfl
    have hf := h.2
    cases hx : c.ledger.context? id with
    | none => rfl
    | some x =>
        simp [Ledger.getOrder, Ledger.context, hx, bind, Except.bind, pure, Except.pure] at hf
  · rintro p rfl
    have hf := h.2
    split at hf
    · cases hf
      rename_i ho
      obtain ⟨x, hx, rfl⟩ := Ledger.getOrder_some ho
      exact ⟨.of_getOrder ho, (Ledger.context_held hx).2⟩
    · split at hf <;> cases hf

theorem refuse_free {order : Order} {reason command : String} :
    Free G (refuse H order reason command) := append_silent rfl fun _ _ h => by cases h

theorem plannedRefusal_walks {order : Order} {mode : Refusal} {command : Option String}
    {Q : α → Core A → Prop} : Run G K (plannedRefusal H order mode command) Q :=
  refuse_free.over.bind fun _ => Walks.fail

theorem still_venueOrder {order : Order} {trigger : Option (OrderType × Option Money)} :
    Still World.core (venueOrder H order trigger : M A VenueOrder) := by
  refine Still.bind (Still.bind still_utcNow fun now => ?_) fun _ =>
    still_call.bind fun _ => still_lift.bind fun _ => still_pure
  cases trigger with
  | none => exact still_pure
  | some t => exact still_pure

theorem triggerOrderType_walks {order : Order} :
    Run G K (triggerOrderType H order) fun _ => K := by
  refine (Walks.still still_call).bind fun caps => ?_
  split
  · exact Walks.pure fun _ hc => hc
  · exact plannedRefusal_walks

theorem requireTif_walks {order : Order} {venueType : Option OrderType} :
    Run G K (requireTif H order venueType) fun _ => K := by
  refine (Walks.still still_call).bind fun caps => (Walks.still still_lift).bind fun unsupported => ?_
  exact Walks.ite (fun _ => plannedRefusal_walks) fun _ => Walks.pure fun _ hc => hc

theorem requireNative_walks {order : Order} : Run G K (requireNative H order) fun _ => K := by
  refine (Walks.still (still_call.bind fun _ => still_pure)).bind fun native => ?_
  exact Walks.ite (fun _ => Walks.pure fun _ hc => hc) fun _ => plannedRefusal_walks

theorem still_collectStored {orders found : List Order} :
    Still World.core (collectStored H orders found : M A (List Order)) := by
  induction orders generalizing found with
  | nil => exact still_pure
  | cons o orders ih => exact (still_read.bind fun _ => still_pure).bind fun _ => ih

theorem still_bracketFromOrders {orders : List Order} :
    Still World.core (bracketFromOrders H orders : M A Bracket) :=
  still_collectStored.bind fun _ => still_lift

theorem still_bracketChildren {entry : String} :
    Still World.core (bracketChildren H entry : M A (List Order)) :=
  still_read.bind fun _ => still_read.bind fun _ => still_pure

theorem still_openBracketStop {entry : String} :
    Still World.core (openBracketStop H entry : M A (Order × Money)) :=
  still_read.bind fun _ => still_read.bind fun _ => still_lift

theorem still_plannedQuantities {orders : List Order} :
    Still World.core (plannedQuantities H orders : M A (List Money)) := by
  induction orders with
  | nil => exact still_pure
  | cons o orders ih => exact still_read.bind fun _ => ih.bind fun _ => still_pure

/-! ## Submission -/

theorem submitNative_walks {order : Order} : Run G (Current order) (submitNative H order)
    fun o c => Current o c ∧ o.state ≠ .new := by
  refine Walks.ite (fun hne => Walks.pure fun c hc => ⟨hc, hne⟩) fun hnew => ?_
  rw [not_not] at hnew
  refine requireNative_walks.bind fun _ => requireTif_walks.bind fun _ => ?_
  refine ((requestSubmission_walks (by decide)).pre fun c hc =>
    ⟨hc, hnew, Or.inl fun t => by cases t <;> decide⟩).bind fun _ => ?_
  refine (Walks.still still_venueOrder.attempt).bind fun built => ?_
  cases built with
  | error => exact Walks.fail
  | ok venue => exact send_walks

theorem submissionReasons_emulated (t : OrderType) :
    submissionReasons.contains s!"Emulated {t.value} submission requested" = true := by
  cases t <;> decide

theorem submitEmulated_walks {order : Order} {price : Option Money} {command : String}
    {venueType : OrderType} {limit : Option Money} :
    Run G (fun c => Current order c ∧ (c.ledger.Separated → c.ledger.Alone order))
      (submitEmulated H order price command venueType limit)
      fun o c => Current o c ∧ o.state ≠ .new := by
  refine getOrder_walks.bind fun current => Walks.lift.bind fun sends => ?_
  refine Walks.assume (fun c hc => hc.1.1.1.read hc.1.2) ?_
  rintro rfl
  refine Walks.ite (fun hs => ?_) fun hs => ?_
  · refine requireTif_walks.bind fun _ => ?_
    refine ((requestSubmission_walks (submissionReasons_emulated _)).pre fun c hc => ?_).bind fun _ => ?_
    · obtain ⟨⟨⟨hcur, halone⟩, -⟩, hsend⟩ := hc
      simp only [sendsEmulated, bind_eq_ok, pure_eq_ok] at hsend
      obtain ⟨_, -, hnew⟩ := hsend
      exact ⟨hcur, of_decide_eq_true (hnew.trans hs), Or.inr halone⟩
    · exact (Walks.still still_venueOrder).bind fun _ => send_walks
  · refine Walks.pure fun c hc => ?_
    obtain ⟨⟨⟨hcur, -⟩, -⟩, hsend⟩ := hc
    simp only [sendsEmulated, bind_eq_ok, pure_eq_ok] at hsend
    obtain ⟨_, -, rfl⟩ := hsend
    exact ⟨hcur, of_decide_eq_false (Bool.eq_false_iff.mpr hs)⟩

theorem ensureStored_walks {order : Order}
    (hG : ∀ c, K c → c.ledger.context? order.orderId = none → G c.ledger order.accountId [order]) :
    Run G K (ensureStored H order) fun _ _ => True := by
  refine (Walks.still still_lift).bind fun _ => findOrder_walks.bind fun known => ?_
  cases known with
  | none =>
      refine Walks.bind (Q := fun _ _ => True) ?_ fun _ => Walks.pure fun _ _ => trivial
      refine append_walks (fun c c' hc h => ⟨?_, trivial⟩) fun _ _ _ => trivial
      obtain ⟨e, ha, -, hp, -, happ⟩ := h.stored
      exact .create hp (ha ▸ hG c hc.1 (hc.2.1 rfl)) happ
  | some _ => exact (Free.of_still (still_read.bind fun _ => still_lift)).over

/-- What a submission returns: the order as it is; and it is still `NEW` only if the venue does not
take its type, so that it is emulated. -/
def Submitted (H : Host) (o : Order) (c : Core A) : Prop :=
  Current o c ∧ (o.state = .new → ∃ n, emulates o.orderType (H.capabilities n) = true)

theorem beginEmulation_walks {order : Order} {t : OrderType} :
    Run G (Current order) (beginEmulation H order t) fun o c =>
      Current o c ∧ o.orderType = order.orderType := by
  refine requireTif_walks.bind fun _ => context_walks.bind fun ctx => ?_
  have hlast : Run G (fun c => c.ledger.At order.accountId order.orderId ∧
      c.ledger.held order.accountId order.orderId = some order) (getOrder H order.orderId)
      fun o c => Current o c ∧ o.orderType = order.orderType := by
    refine getOrder_walks.post fun o c h => ⟨.of_getOrder h.2, ?_⟩
    have ho := h.1.1.getOrder h.2
    rw [h.1.2] at ho
    cases ho
    rfl
  refine Walks.ite (fun _ => ?_) fun _ => hlast.pre fun c hc => ⟨hc.1.at, hc.1.held⟩
  refine Walks.bind (Q := fun _ c => c.ledger.At order.accountId order.orderId ∧
    c.ledger.held order.accountId order.orderId = some order) ?_ fun _ => hlast
  refine append_walks (fun c c' hc h => ⟨h.step ⟨rfl, fun _ _ hs => by cases hs⟩, h.at hc.1.at, ?_⟩)
    fun c hc _ => ⟨hc.1.at, hc.1.held⟩
  obtain ⟨e, -, -, hp, happ⟩ := h.ledger
  rw [Ledger.append_kept happ hp]
  exact hc.1.held

theorem startEmulation_walks {order : Order} : Run G (Current order) (startEmulation H order)
    fun o c => Current o c ∧ (o.state = .new → o.orderType = order.orderType) := by
  refine (Walks.still still_call).bind fun caps => Walks.lift.bind fun plan => ?_
  cases plan with
  | ret => exact Walks.pure fun c hc => ⟨hc.1, fun _ => rfl⟩
  | refuseLimit => exact plannedRefusal_walks
  | limit => exact beginEmulation_walks.weaken (fun c hc => hc.1) fun o c h => ⟨h.1, fun _ => h.2⟩
  | trigger =>
      refine triggerOrderType_walks.bind fun t => ?_
      exact beginEmulation_walks.weaken (fun c hc => hc.1) fun o c h => ⟨h.1, fun _ => h.2⟩

theorem dispatchSubmit_walks {order : Order} :
    Run G (Current order) (dispatchSubmit H order) (Submitted H) := by
  refine call_walks.bind fun caps => Walks.ite (fun he => ?_) fun _ => ?_
  · rintro w ⟨hc, n, hn⟩
    refine (startEmulation_walks w hc).weaken (fun o w' h => ?_) fun _ _ h => h
    refine ⟨h.1, h.2.1, fun hnew => ⟨n, ?_⟩⟩
    rw [h.2.2 hnew, hn]
    exact he
  · exact submitNative_walks.weaken (fun c hc => hc.1) fun o c h => ⟨h.1, fun hnew => absurd hnew h.2⟩

theorem submit_walks {order : Order}
    (hG : ∀ c, K c → c.ledger.context? order.orderId = none → G c.ledger order.accountId [order]) :
    Run G K (submit H order) (Submitted H) := by
  refine (ensureStored_walks hG).bind fun _ => context_walks.bind fun ctx => ?_
  have hdispatch : Run G (fun c => True ∧ c.ledger.context? order.orderId = some ctx)
      (dispatchSubmit H ctx.order) (Submitted H) :=
    dispatchSubmit_walks.pre fun c hc => .of_context hc.2
  cases ctx.order.parentOrderId with
  | none => exact hdispatch
  | some parentId =>
      refine (Walks.still still_read).bind fun parent => (Walks.still still_read).bind fun st => ?_
      exact Walks.ite (fun _ => plannedRefusal_walks) fun _ => hdispatch

/-- Submitting an order that the ledger has creates nothing. -/
theorem submit_known {order : Order} : Run G (fun c => ∃ x, c.ledger.context? order.orderId = some x)
    (submit H order) (Submitted H) := by
  refine submit_walks fun c hc hnone => ?_
  obtain ⟨x, hx⟩ := hc
  rw [hnone] at hx
  cases hx

/-! ## Cancels -/

theorem recordCancelAck_free {current : Order} {command reason : String} {oco : Bool}
    {ack : VenueAck} : Free G (recordCancelAck H current command reason oco ack) := by
  refine (Free.of_still still_lift).bind fun plan => ?_
  split
  · refine (append_silent rfl fun _ _ h => by cases h; rfl).bind fun _ => ?_
    exact Free.of_still still_read
  · exact refuse_free.bind fun _ => Walks.fail
  · refine (append_silent rfl fun _ _ h => by cases h; rfl).bind fun _ => ?_
    split
    · exact Walks.fail
    · exact Free.of_still still_read

theorem cancelMode_venue {s : OrderState} {id : String} {oco : Bool}
    (h : cancelMode s id oco = .ok .venue) : s ≠ .pendingUnknown := by
  rintro rfl
  cases oco <;> simp [cancelMode] at h

/-- The order is pending when the venue is asked, unless the command's marker was there before. -/
theorem cancelAtVenue_walks {ctx : Context} {command reason : String} {oco : Bool}
    (hs : ctx.order.state ≠ .pendingUnknown) :
    Run G (Current ctx.order) (cancelAtVenue H ctx command reason oco) fun _ _ => True := by
  refine Walks.lift.bind fun venueId => ?_
  let act := Act.cancelOrder ctx.order.accountId ctx.order.orderId command
  refine (note_walks act (Q := fun c => ∃ c₀, Current ctx.order c₀ ∧ c = c₀.note act)
    (fun _ _ => trivial) fun c hc => ⟨c, hc.1, rfl⟩).bind fun _ => ?_
  have hmark : Run G (fun c => ∃ c₀, Current ctx.order c₀ ∧ c = c₀.note act)
      (markPending H ctx.order s!"Cancel pending: {reason}" (command ++ ":pending"))
      fun _ c => c.Permitted (.cancel ctx.order.accountId ctx.order.orderId) := by
    rintro w ⟨c₀, hcur, hw⟩
    have hcur' : Current ctx.order w.core := by rw [hw]; exact hcur
    have hheld := hcur'.held
    refine (markPending_spec ctx.order hcur'.at fun hp => ?_).weaken (fun _ w' h => ?_) fun _ w' h => ?_
    · obtain ⟨o, ho, hpend⟩ := hp
      rw [hheld] at ho
      cases ho
      exact hs hpend
    · obtain ⟨v, h | ⟨⟨prior, hprior, -⟩, hsame⟩⟩ := h
      · exact ⟨.single (h.step ⟨rfl, fun _ _ hset hsil => by cases hset; cases hsil⟩), Or.inl h.pending⟩
      · refine ⟨hsame ▸ .refl, Or.inr ⟨⟨act, c₀.ledger⟩, ?_, command, rfl, ?_⟩⟩
        · rw [hsame, hw]
          exact List.mem_append_right _ List.mem_cons_self
        · rw [hw] at hprior
          change c₀.ledger.byCommand (command ++ ":pending") = some prior at hprior
          rw [hprior]
          exact Option.some_ne_none _
    · rw [h]
      exact Halts.refl _
  refine hmark.bind fun _ => (broker_walks _ fun c hc => hc).bind fun answer => ?_
  cases answer with
  | none => exact Walks.fail
  | some ack => exact recordCancelAck_free.over

theorem cancelOrder_free {order : Order} {command reason : String} {oco : Bool} :
    Free G (cancelOrder H order command reason oco) := by
  refine context_walks.bind fun ctx => Walks.lift.bind fun mode => ?_
  cases mode with
  | ret => exact Walks.pure fun _ _ => trivial
  | «local» =>
      refine Walks.bind (Q := fun _ _ => True) ?_ fun _ => Free.of_still still_read
      exact (append_silent rfl fun _ _ h => by cases h; rfl).over
  | venue =>
      intro w hw
      exact cancelAtVenue_walks (cancelMode_venue hw.2) w (.of_context hw.1.2)

theorem cancelExits_free {exits : List Order} {command : String} :
    Free G (cancelExits H exits command) := by
  refine Walks.forEach fun sibling _ => (Free.of_still still_read).bind fun current => ?_
  refine Walks.ite (fun _ => Walks.pure fun _ _ => trivial) fun _ => ?_
  exact cancelOrder_free.bind fun _ => Free.of_still still_lift

/-! ## Emulated orders -/

theorem routeEmulatedTrigger_walks {order : Order} {price : Option Money} {command : String} :
    Run G (Current order) (routeEmulatedTrigger H order price command)
      fun o c => Current o c ∧ o.state ≠ .new := by
  refine (Walks.still still_lift).bind fun own => ?_
  refine Walks.bind (Q := fun _ => Current order) ?_ fun venueType => ?_
  · exact Walks.ite (fun _ => Walks.pure fun _ hc => hc) fun _ => triggerOrderType_walks
  · refine requireTif_walks.bind fun _ => ?_
    have hcancel : Free G (cancelEmulatedSiblings H order command) :=
      (Free.of_still still_read).bind fun _ => cancelExits_free
    refine (hcancel.both cancelEmulatedSiblings_writes).bind (fun _ => ?_) |>.pre
      fun c hc => ⟨trivial, hc⟩
    exact submitEmulated_walks.pre fun c hc => hc.2

/-- The observation recorded under the command, if there is one, triggered nothing. -/
def Untriggered (command : String) (c : Core A) : Prop :=
  ∀ e x, c.ledger.byCommand command = some e → e.payload = .emulated x → x.triggered = false

/-- What an observation returns: the order as it is, still `NEW` only if nothing triggered. -/
def Watched (command : String) (o : Order) (c : Core A) : Prop :=
  Current o c ∧ (o.state = .new → Untriggered command c)

theorem Watched.of_left {command : String} {o : Order} {c : Core A}
    (h : Current o c ∧ o.state ≠ .new) : Watched command o c := ⟨h.1, fun hnew => absurd hnew h.2⟩

theorem observedAction_new {triggered : Bool} {s : OrderState} {id : String} {x : Observed}
    (h : observedAction triggered s id = .ok x) (hx : x ≠ .route) (hs : s = .new) :
    triggered = false := by
  subst hs
  cases triggered with
  | false => rfl
  | true =>
      simp only [observedAction, Bool.not_true, Bool.false_eq_true, if_false, Except.ok.injEq] at h
      exact absurd h.symm hx

theorem Appended.byCommand {c c' : Core A} {a command : String} {kind : EventKind} {payload : Obj}
    (h : Appended c a kind payload command c') :
    ∃ ev, c'.ledger.byCommand command = some ev ∧ ev.payload = payload := by
  obtain ⟨e, -, -, hp, hcmd, happ⟩ := h.stored
  obtain ⟨ev, -, -, hpay, hevcmd, hl, -⟩ := Ledger.append_state (Core.append_fields happ).1
  refine ⟨ev, ?_, hpay.trans hp⟩
  have hnone := h.unused
  rw [Ledger.byCommand] at hnone ⊢
  rw [hl, List.find?_append, hnone]
  simp [hevcmd, hcmd]

theorem recordObservation_walks {order : Order} {emulation : Option EmulatedOrderState}
    {price : Money} {command : String} :
    Run G (Current order) (recordObservation H order emulation price command) (Watched command) := by
  refine (Walks.still still_lift).bind fun seen => ?_
  refine Walks.bind (Q := fun _ c => Current order c ∧ ∃ ev, c.ledger.byCommand command = some ev ∧
    ev.payload = .emulated seen) ?_ fun _ => ?_
  · refine append_walks (fun c c' hc h => ⟨h.step ⟨rfl, fun _ _ hs => by cases hs⟩, ?_, h.byCommand⟩) ?_
    · obtain ⟨e, -, -, hp, happ⟩ := h.ledger
      exact .of_held (h.at hc.at) ((Ledger.append_kept happ hp _ _).trans hc.held)
    · rintro c hc ⟨prior, hprior, -, -, hp⟩
      refine ⟨hc, prior, hprior, ?_⟩
      cases hpay : prior.payload <;> rw [hpay] at hp <;> simp [payloadEqual] at hp
      rw [hp]
  · refine Walks.ite (fun _ => ?_) fun hn => ?_
    · exact routeEmulatedTrigger_walks.weaken (fun c hc => hc.1) fun _ _ h => .of_left h
    refine getOrder_current.post fun o c h => ⟨h.2.1, fun _ e x he hx => ?_⟩
    obtain ⟨ev, hev, hpay⟩ := h.1.2
    rw [hev] at he
    cases he
    rw [hpay] at hx
    cases hx
    exact Bool.eq_false_iff.mpr hn

theorem replayObservation_walks {order : Order} {price : Money} {command : String} {prior : Event} :
    Run G (fun c => c.ledger.byCommand command = some prior ∧ Current order c)
      (replayObservation H order price command prior) (Watched command) := by
  refine (Walks.still still_lift).bind fun _ => getOrder_current.bind fun current => ?_
  refine Walks.lift.bind fun action => Walks.ite (fun _ => ?_) fun hn => Walks.pure fun c hc => ?_
  · exact routeEmulatedTrigger_walks.weaken (fun c hc => hc.1.1.2) fun _ _ h => .of_left h
  · obtain ⟨⟨⟨hprior, -⟩, hcur, -⟩, haction⟩ := hc
    refine ⟨hcur, fun hnew e x he hx => ?_⟩
    rw [hprior] at he
    cases he
    have h := observedAction_new haction hn hnew
    rw [hx] at h
    simpa using h

theorem updateEmulatedOrder_walks {id command : String} {price : Money} :
    Run G (fun _ => True) (updateEmulatedOrder H id price command) (Watched command) := by
  refine (Free.of_still still_lift).bind fun _ => context_walks.bind fun ctx => ?_
  refine (Walks.still still_call).bind fun caps => (Walks.still still_lift).bind fun _ => ?_
  refine read_walks.bind fun prior => ?_
  cases prior with
  | some e => exact replayObservation_walks.pre fun c hc => ⟨Except.ok.inj hc.2, .of_context hc.1.2⟩
  | none =>
      refine Walks.lift.bind fun action => ?_
      cases action with
      | route =>
          exact routeEmulatedTrigger_walks.weaken (fun c hc => .of_context hc.1.1.2)
            fun _ _ h => .of_left h
      | ret =>
          refine Walks.pure fun c hc => ⟨.of_context hc.1.1.2, fun _ e x he => ?_⟩
          rw [Except.ok.inj hc.1.2] at he
          cases he
      | observe => exact recordObservation_walks.pre fun c hc => .of_context hc.1.1.2

theorem updateTrailing_walks {id command : String} {price : Money} :
    Run G (fun _ => True) (updateTrailing H id price command) (Watched command) := by
  refine (Free.of_still still_read).bind fun order => (Free.of_still still_call).bind fun caps => ?_
  exact (Free.of_still still_lift).bind fun _ => updateEmulatedOrder_walks

/-! ## Replaces -/

/-- An update to a state that is warranted. -/
theorem update_walks {a command : String} {u : OrderUpdated}
    (h : ∀ c, K c → c.Warranted a u.order.orderId u.order.state) :
    Run G K (append H a .orderUpdated (.orderUpdated u) command) fun _ _ => True := by
  refine append_walks (fun c c' hc happ => ⟨happ.step ⟨rfl, fun id s hs _ => ?_⟩, trivial⟩)
    fun _ _ _ => trivial
  cases hs
  exact h c hc

theorem Current.warranted {o : Order} {c : Core A} (h : Current o c) :
    c.Warranted o.accountId o.orderId o.state := Or.inr (Or.inl ⟨o, h.held, rfl⟩)

theorem replaceEmulatedStop_walks {order : Order} {changes : OrderChanges} {command : String} :
    Run G (Current order) (replaceEmulatedStop H order changes command) fun _ _ => True := by
  refine (Walks.still still_read).bind fun prior => ?_
  cases prior with
  | some e => exact (Free.of_still (still_lift.bind fun _ => still_read)).over
  | none =>
      refine (Walks.still still_read).bind fun ctx => (Walks.still still_lift).bind fun _ => ?_
      refine (Walks.still still_lift).bind fun _ => ?_
      refine Walks.bind (Q := fun _ _ => True) ?_ fun _ => Free.of_still still_read
      exact update_walks fun c hc => hc.warranted

/-- The order's state before the replace went to the venue, as noted then. -/
def Replacing (o : Order) (c : Core A) : Prop :=
  ∃ call ∈ c.trace, call.act = .replaceOrder o.accountId o.orderId ∧
    call.ledger.HeldIn o.accountId o.orderId o.state

theorem stable_replacing {o : Order} : Stable (Step G) (Replacing o) := stable_noted

theorem Replacing.warranted {o : Order} {c : Core A} (h : Replacing o c) :
    c.Warranted o.accountId o.orderId o.state := Or.inr (Or.inr h)

theorem recordReplaceAck_walks {order updated : Order} {command : String} {ack : VenueAck}
    (hid : updated.orderId = order.orderId) :
    Run G (Replacing order) (recordReplaceAck H order updated command ack) fun _ _ => True := by
  unfold recordReplaceAck
  dsimp only
  split
  · refine Walks.bind (Q := fun _ _ => True) ?_ fun _ => Free.of_still still_read
    exact (append_silent rfl fun _ _ h => by cases h; rfl).over
  · refine (refuse_free.keeps stable_replacing).bind fun _ => ?_
    refine Walks.bind (Q := fun _ _ => True) ?_ fun _ => Walks.fail
    exact (update_walks fun c hc => hc.warranted).bind fun _ => Walks.pure fun _ _ => trivial
  · refine Walks.bind (Q := fun _ _ => True) ?_ fun _ => Free.of_still still_read
    exact update_walks fun c hc => hid ▸ hc.warranted

theorem replaceAtVenue_walks {ctx : Context} {updated : Order} {changes : OrderChanges}
    {command : String} (hid : updated.orderId = ctx.order.orderId) :
    Run G (fun c => Current ctx.order c ∧ c.ledger.byCommand (command ++ ":pending") = none)
      (replaceAtVenue H ctx updated changes command) fun _ _ => True := by
  refine (Walks.still still_lift).bind fun venueId => ?_
  refine (note_walks (.replaceOrder ctx.order.accountId ctx.order.orderId)
    (Q := fun c => Replacing ctx.order c ∧ c.ledger.byCommand (command ++ ":pending") = none)
    (fun _ _ => trivial) fun c hc => ?_).bind fun _ => ?_
  · refine ⟨⟨⟨_, c.ledger⟩, List.mem_append_right _ List.mem_cons_self, rfl, ?_⟩, hc.2⟩
    exact ⟨ctx.order, hc.1.held, rfl⟩
  refine Walks.bind (Q := fun _ c => Replacing ctx.order c ∧
    c.ledger.HeldIn ctx.order.accountId ctx.order.orderId .pendingUnknown) ?_ fun _ => ?_
  · refine append_walks (fun c c' hc h => ?_) fun c hc hrep => ?_
    · have hstep : Step G c c' := h.step ⟨rfl, fun _ _ hs hsil => by cases hs; cases hsil⟩
      exact ⟨hstep, stable_noted c c' hstep hc.1, h.pending⟩
    · obtain ⟨prior, hprior, -⟩ := hrep
      rw [hc.2] at hprior
      cases hprior
  refine (broker_walks (.replace ctx.order.accountId ctx.order.orderId) fun c hc => hc.2).bind
    fun answer => ?_
  cases answer with
  | none => exact Walks.fail
  | some ack =>
      refine (recordReplaceAck_walks hid).pre ?_
      rintro _ ⟨c₀, ⟨⟨call, hcall, hact⟩, -⟩, rfl⟩
      exact ⟨call, List.mem_append_left _ hcall, hact⟩

theorem replaceFresh_walks {ctx : Context} {changes : OrderChanges} {command : String} :
    Run G (fun c => Current ctx.order c ∧ c.ledger.byCommand (command ++ ":pending") = none)
      (replaceFresh H ctx changes command) fun _ _ => True := by
  refine (Walks.still still_lift).bind fun _ => (Walks.still still_lift).bind fun _ => ?_
  refine (Walks.still still_lift).bind fun _ => Walks.ite (fun _ => ?_) fun _ => ?_
  · refine Walks.bind (Q := fun _ _ => True) ?_ fun _ => Walks.pure fun _ _ => trivial
    exact update_walks fun c hc => hc.1.warranted
  · exact replaceAtVenue_walks rfl

theorem replace_free {id command : String} {changes : OrderChanges} :
    Free G (replace H id changes command) := by
  refine getOrder_current.bind fun order => context_walks.bind fun ctx => ?_
  refine Walks.ite (fun _ => replaceEmulatedStop_walks.pre fun c hc => hc.1.2.1) fun _ => ?_
  refine read_walks.bind fun request => read_walks.bind fun noop => ?_
  cases request with
  | some prior => exact (Free.of_still (still_lift.bind fun _ => still_pure)).over
  | none =>
      cases noop with
      | some prior => exact (Free.of_still (still_lift.bind fun _ => still_pure)).over
      | none => exact replaceFresh_walks.pre fun c hc => ⟨.of_context hc.1.1.2, Except.ok.inj hc.1.2⟩

/-! ## Brackets -/

theorem submitChild_free {child : Order} : Free G (submitChild H child) := by
  refine getOrder_current.bind fun current => Walks.ite (fun _ => ?_) fun _ =>
    Walks.pure fun _ _ => trivial
  refine Walks.bind (Q := fun _ _ => True) ?_ fun _ => Free.of_still still_lift
  refine submit_known.weaken (fun c hc => ?_) fun _ _ _ => trivial
  obtain ⟨x, hx, -⟩ := hc.2.1
  exact ⟨x, hx⟩

theorem ensureChildQuantity_free {child : Order} {q : Money} {command : String} :
    Free G (ensureChildQuantity H child q command) := by
  refine context_walks.bind fun ctx => (Walks.still still_lift).bind fun plan => ?_
  cases plan with
  | ret => exact Walks.pure fun _ _ => trivial
  | submit => exact submitChild_free.over
  | «local» total =>
      refine Walks.bind (Q := fun _ _ => True) ?_ fun _ =>
        (Free.of_still still_read).bind fun _ => submitChild_free
      exact update_walks fun c hc => (Current.of_context hc.2).warranted
  | replace total => exact replace_free.over.bind fun _ => Walks.pure fun _ _ => trivial

theorem sizeTarget_free {cause : String} {item : Order × Money} :
    Free G (sizeTarget H cause item) := by
  refine Walks.ite (fun _ => Walks.ite (fun _ => ensureChildQuantity_free) fun _ => ?_) fun _ =>
    Walks.pure fun _ _ => trivial
  exact cancelOrder_free.bind fun _ => Walks.pure fun _ _ => trivial

theorem protect_free {entry : Order} {plan : SyncPlan} {cause : String} :
    Free G (protect H entry plan cause) := by
  refine ensureChildQuantity_free.bind fun _ => Walks.ite (fun _ => ?_) fun _ =>
    Walks.pure fun _ _ => trivial
  refine (Free.of_still still_plannedQuantities).bind fun _ => (Free.of_still still_read).bind fun _ => ?_
  refine (Free.of_still still_lift).bind fun _ => (Free.of_still still_lift).bind fun _ => ?_
  exact Walks.forEach fun _ _ => sizeTarget_free

theorem synchronizeBracket_free {changed : Order} {cause : String} :
    Free G (synchronizeBracket H changed cause) := by
  refine Walks.bind (Q := fun _ _ => True) ?_ fun entry => ?_
  · cases changed.parentOrderId with
    | some parent => exact Free.of_still still_read
    | none => exact Free.of_still still_pure
  refine (Free.of_still still_read).bind fun st => (Free.of_still still_lift).bind fun plan => ?_
  cases plan with
  | none => exact Walks.pure fun _ _ => trivial
  | some plan =>
      refine Walks.bind (Q := fun _ _ => True) ?_ fun _ => ?_
      · exact Walks.ite (fun _ => protect_free) fun _ => cancelExits_free
      · exact Walks.ite (fun _ => cancelExits_free) fun _ => Walks.pure fun _ _ => trivial

/-! ## Commands -/

theorem recordFill_free {fill : Fill} : Free G (recordFill H fill) := by
  refine (Free.of_still still_read).bind fun ctx => (Free.of_still still_call).bind fun env => ?_
  refine (Free.of_still still_lift).bind fun _ => (Free.of_still still_lift).bind fun _ => ?_
  refine (append_silent rfl fun _ _ h => by cases h).bind fun _ => ?_
  exact synchronizeBracket_free.bind fun _ => Free.of_still still_read

theorem cancel_free {id command : String} : Free G (cancel H id command) := by
  refine (Free.of_still still_read).bind fun order => Walks.bind (Q := fun _ _ => True) ?_ fun _ => ?_
  · refine Walks.ite (fun _ => ?_) fun _ => Walks.pure fun _ _ => trivial
    refine (Free.of_still still_read).bind fun st => (Free.of_still still_read).bind fun entry => ?_
    refine (Free.of_still still_lift).bind fun unprotects => ?_
    exact Walks.ite (fun _ => plannedRefusal_walks) fun _ => Walks.pure fun _ _ => trivial
  · refine cancelOrder_free.bind fun result => Walks.ite (fun _ => ?_) fun _ =>
      Walks.pure fun _ _ => trivial
    exact synchronizeBracket_free.bind fun _ => Walks.pure fun _ _ => trivial

theorem moveStop_free {entry command : String} {price : Money} :
    Free G (moveStop H entry price command) := by
  refine (Free.of_still still_openBracketStop).bind fun found => ?_
  refine (Free.of_still still_lift).bind fun moves => ?_
  exact Walks.ite (fun _ => replace_free) fun _ => Walks.pure fun _ _ => trivial

/-- A new order under an id the ledger does not have may be created. -/
def TakesNew (G : Ledger A → String → List Order → Prop) : Prop :=
  ∀ l o, l.context? o.orderId = none → o.state = .new → G l o.accountId [o]

theorem submit_new {order : Order} (hG : TakesNew G) (hs : order.state = .new) :
    Run G K (submit H order) fun _ _ => True :=
  (submit_walks fun c _ hnone => hG c.ledger order hnone hs).post fun _ _ _ => trivial

theorem closeBracket_free {entry command reason : String} (hG : TakesNew G) :
    Free G (closeBracket H entry command reason) := by
  refine findOrder_walks.bind fun existing => ?_
  cases existing with
  | some close =>
      refine (Walks.still still_lift).bind fun done => Walks.ite (fun _ => ?_) fun _ => ?_
      · exact Walks.pure fun _ _ => trivial
      · refine (Walks.still still_openBracketStop).bind fun _ => ?_
        refine submit_known.weaken (fun c hc => ?_) fun _ _ _ => trivial
        obtain ⟨x, hx, -⟩ := (hc.2.2 close rfl).1
        exact ⟨x, hx⟩
  | none =>
      refine (Walks.still still_openBracketStop).bind fun found => ?_
      refine Walks.bind (Q := fun o _ => o.state = .new) ?_ fun close => ?_
      · refine (Walks.still still_bracketChildren).bind fun exits => ?_
        refine (Walks.still still_lift).bind fun _ => (Walks.still still_utcNow).bind fun now => ?_
        refine Walks.bind (Q := fun _ _ => True) ?_ fun _ => Walks.pure fun _ _ => rfl
        refine append_walks (fun c c' hc h => ⟨?_, trivial⟩) fun _ _ _ => trivial
        obtain ⟨e, ha, -, hp, -, happ⟩ := h.stored
        exact .create hp (ha ▸ hG c.ledger _ (hc.2.1 rfl) rfl) happ
      · intro w hw
        exact submit_new (K := fun _ => True) hG hw w trivial

theorem openStop_mem {st : AccountState} {entry : Order} {x : Order × Money}
    (h : openStop A st entry = .ok x) : x.1 ∈ st.orders.values := by
  simp only [openStop, bind_eq_ok] at h
  obtain ⟨_, -, h⟩ := h
  split at h
  · simp [management] at h
  · rename_i stop hstop
    simp only [bind_eq_ok, pure_eq_ok] at h
    obtain ⟨_, -, _, -, _, -, _, -, rfl⟩ := h
    exact List.mem_of_mem_filter (List.mem_of_find?_eq_some hstop)

/-- The stop of an open bracket is in the account its entry is found in. -/
theorem openBracketStop_walks {entry : String} : Run G K (openBracketStop H entry) fun x c =>
    K c ∧ c.ledger.At x.1.accountId entry := by
  refine getOrder_current.bind fun order => read_walks.bind fun st => Walks.lift.post ?_
  rintro x c ⟨⟨⟨hK, hcur, hid⟩, hst⟩, hx⟩
  refine ⟨hK, ?_⟩
  cases Except.ok.inj hst
  obtain ⟨e, he, hxe⟩ := List.mem_map.mp (openStop_mem hx)
  have hheld : c.ledger.held order.accountId e.1 = some x.1 := hxe ▸ OMap.get_of_mem he
  rw [(Ledger.held_ids hheld).2, ← hid]
  exact hcur.at

/-- The orders a reduce of `entry` may create. -/
def ReduceOf (entry : String) (l : Ledger A) (o : Order) : Prop :=
  (∃ n : Nat, o.orderId = s!"{entry}:reduce:{n}") ∧ o.state = .new ∧ l.At o.accountId entry

theorem reduce_orderId {entry : String} {exits : List Order} {left fraction : Money}
    {x : Money × String} (h : reduce A entry exits left fraction = .ok x) :
    ∃ n : Nat, x.2 = s!"{entry}:reduce:{n}" := by
  simp only [reduce, bind_eq_ok, pure_eq_ok] at h
  obtain ⟨_, -, _, -, _, -, _, -, _, -, rfl⟩ := h
  exact ⟨_, rfl⟩

theorem createReduce_walks {entry command reason fingerprint : String} {fraction : Money}
    (hG : ∀ c, K c → ∀ o, ReduceOf entry c.ledger o → G c.ledger o.accountId [o]) :
    Run G K (createReduce H entry fraction command reason fingerprint) fun o _ => o.state = .new := by
  refine openBracketStop_walks.bind fun found => (Walks.still still_bracketChildren).bind fun exits => ?_
  refine Walks.lift.bind fun plan => (Walks.still still_utcNow).bind fun now => ?_
  refine Walks.bind (Q := fun _ _ => True) ?_ fun _ => Walks.pure fun _ _ => rfl
  refine append_walks (fun c c' hc h => ⟨?_, trivial⟩) fun _ _ _ => trivial
  obtain ⟨e, ha, -, hp, -, happ⟩ := h.stored
  refine .create hp (ha ▸ hG c hc.1.1 _ ⟨?_, rfl, hc.1.2⟩) happ
  exact reduce_orderId hc.2

theorem sendReduce_walks {order : Order} {command : String}
    (h : ∀ c, K c → c.ledger.context? order.orderId = none → G c.ledger order.accountId [order])
    (hK : Stable (Step G) K) : Run G K (sendReduce H order command) fun _ _ => True := by
  refine (Walks.still still_bracketChildren).bind fun exits => ?_
  refine (cancelExits_free.keeps hK).bind fun _ => ?_
  exact (submit_walks h).post fun _ _ _ => trivial

theorem reduceBracket_walks {entry command reason : String} {fraction : Money} (hnew : TakesNew G)
    (hG : ∀ c, K c → ∀ o, ReduceOf entry c.ledger o → G c.ledger o.accountId [o]) :
    Run G K (reduceBracket H entry fraction command reason) fun _ _ => True := by
  refine (Walks.still still_lift).bind fun _ => (Walks.still still_read).bind fun entryOrder => ?_
  refine (Walks.still still_read).bind fun prior => ?_
  cases prior with
  | some e =>
      refine (Walks.still still_lift).bind fun _ => getOrder_current.bind fun order => ?_
      refine (sendReduce_walks (fun c hc hnone => ?_) (stable_known order.orderId)).pre fun c hc => ?_
      · obtain ⟨x, hx⟩ := hc
        rw [hnone] at hx
        cases hx
      · obtain ⟨x, hx, -⟩ := hc.2.1
        exact ⟨x, hx⟩
  | none =>
      refine (createReduce_walks hG).bind fun order => ?_
      intro w hw
      exact sendReduce_walks (K := fun _ => True) (fun c _ hnone => hnew c.ledger order hnone hw)
        (fun _ _ _ _ => trivial) w trivial

theorem createBracket_walks {intent : Intent} {q : Money}
    (hG : ∀ c, K c → ∀ targets now, G c.ledger intent.accountId (bracketOrders intent q targets now)) :
    Run G K (createBracket H intent q) fun _ _ => True := by
  refine (Walks.still still_lift).bind fun _ => (Walks.still still_call).bind fun caps => ?_
  refine (Walks.still still_lift).bind fun _ => (Walks.still still_read).bind fun prior => ?_
  cases prior with
  | some e => exact (Free.of_still (still_lift.bind fun _ => still_bracketFromOrders)).over
  | none =>
      refine (Walks.still still_utcNow).bind fun now => (Walks.still still_lift).bind fun _ => ?_
      refine (Walks.still still_lift).bind fun targets => ?_
      refine Walks.bind (Q := fun _ _ => True) ?_ fun _ => Free.of_still still_bracketFromOrders
      refine append_walks (fun c c' hc h => ⟨?_, trivial⟩) fun _ _ _ => trivial
      obtain ⟨e, ha, -, hp, -, happ⟩ := h.stored
      exact .create hp (ha ▸ hG c hc targets now) happ

/-! ## Reconciliation -/

theorem ingestVenueFills_free {order : Order} {found : VenueOrderState} :
    Free G (ingestVenueFills H order found) := by
  refine (Free.of_still still_call).bind fun fills => (Free.of_still still_call).bind fun env => ?_
  refine Walks.bind (Q := fun _ _ => True) ?_ fun _ => ?_
  · refine Walks.forEach fun v _ => (Free.of_still still_lift).bind fun fill => ?_
    exact recordFill_free.bind fun _ => Walks.pure fun _ _ => trivial
  · refine (Free.of_still still_read).bind fun ctx => Walks.ite (fun _ => ?_) fun _ =>
      Walks.pure fun _ _ => trivial
    exact Free.of_still (still_read.bind fun _ => still_lift)

/-- The venue's read-back holds an order under the id. -/
def Found (id : String) (c : Core A) : Prop := ∃ call ∈ c.trace, call.act = .found id

theorem stable_found {id : String} : Stable (Step G) (Found id) := stable_noted

theorem Found.received {id a : String} {c : Core A} (h : Found id c) : c.Received a id := by
  obtain ⟨call, hcall, hact⟩ := h
  exact Or.inl ⟨call, hcall, Or.inr hact⟩

theorem resolve_walks {id : String} {found : VenueOrderState} :
    Run G (Found id) (resolve H id found) fun _ _ => True := by
  refine getOrder_current.bind fun order => (Walks.still still_lift).bind fun action => ?_
  have hafter : ∀ cause, Free G (do
      let resolved ← getOrder H id
      synchronizeBracket H resolved cause
      pure resolved) := fun cause =>
    (Free.of_still still_read).bind fun _ => synchronizeBracket_free.bind fun _ =>
      Walks.pure fun _ _ => trivial
  cases action with
  | ret => exact Walks.pure fun _ _ => trivial
  | updated =>
      refine Walks.bind (Q := fun _ _ => True) ?_ fun _ => hafter _
      exact update_walks fun c hc => Or.inl (hc.2.2 ▸ hc.1.received)
  | record kind =>
      refine Walks.bind (Q := fun _ _ => True) ?_ fun _ => hafter _
      refine append_walks (fun c c' hc h => ⟨h.step ⟨rfl, fun i s hs _ => Or.inl ?_⟩, trivial⟩)
        fun _ _ _ => trivial
      simp only [setsState, Option.map_eq_some_iff, Prod.mk.injEq] at hs
      obtain ⟨_, -, rfl, -⟩ := hs
      exact hc.1.received

theorem reconcileOrder_free {id : String} : Free G (reconcileOrder H id) := by
  refine (Free.of_still still_read).bind fun ctx => (Free.of_still still_call).bind fun rows => ?_
  refine (Free.of_still still_lift).bind fun found => ?_
  refine (note_walks (.found id) (Q := Found id) (fun _ _ => trivial) fun c _ => ?_).bind fun _ => ?_
  · exact ⟨⟨_, c.ledger⟩, List.mem_append_right _ List.mem_cons_self, rfl⟩
  refine Walks.bind (Q := fun _ => Found id) ?_ fun _ => ?_
  · refine Walks.still ?_
    unfold refuseUnresolved
    split
    · exact still_read.bind fun _ => still_lift
    · exact still_pure
  · refine Walks.ite (fun _ => ?_) fun _ => resolve_walks
    exact (ingestVenueFills_free.keeps stable_found).bind fun _ => resolve_walks

/-! ## Runs -/

/-- The orders a command may create from a ledger are ones `G` takes. -/
def Command.Takes (G : Ledger A → String → List Order → Prop) (l : Ledger A) : Command → Prop
  | .createBracket intent q =>
    ∀ targets now, G l intent.accountId (bracketOrders intent q targets now)
  | .submit order | .submitTrailing order =>
    l.context? order.orderId = none → G l order.accountId [order]
  | .reduceBracket entry _ _ _ => ∀ o, ReduceOf entry l o → G l o.accountId [o]
  | _ => True

/-- What a command returns, besides an order: see the two submission results. -/
def Command.Returns (H : Host) : Command → Option Order → Core A → Prop
  | .submit _, some o, c | .submitTrailing _, some o, c => Submitted H o c
  | .updateTrailing _ _ command, some o, c | .updateEmulatedOrder _ _ command, some o, c =>
    Watched command o c
  | _, _, _ => True

theorem Command.run_walks (hG : TakesNew G) (command : Command) :
    Run G (fun c => command.Takes G c.ledger) (command.run H) (command.Returns H) := by
  cases command with
  | createBracket intent q =>
      exact (createBracket_walks fun c hc => hc).bind fun _ => Walks.pure fun _ _ => trivial
  | submit order => exact Walks.map (submit_walks fun c hc => hc)
  | submitTrailing order =>
      exact Walks.map ((Walks.still still_lift).bind fun _ => submit_walks fun c hc => hc)
  | updateTrailing => exact Walks.map updateTrailing_walks
  | updateEmulatedOrder => exact Walks.map updateEmulatedOrder_walks
  | recordFill => exact Walks.map recordFill_free
  | cancel => exact Walks.map cancel_free
  | moveStop => exact Walks.map moveStop_free
  | closeBracket => exact Walks.map (closeBracket_free hG)
  | reduceBracket => exact Walks.map (reduceBracket_walks hG fun c hc => hc)
  | replace => exact Walks.map replace_free
  | reconcileOrder => exact Walks.map reconcileOrder_free

end TradeEngine.Oms
