import TradeEngine.Oms.Lemmas.Invariants

/-!
# Submissions and replaces as writes

What a submission and a replace write to the order they are given, and how they leave it.
-/

namespace TradeEngine.Oms

open Lib Relation

variable {A : Arith}

section Functions

variable {P : String → Prop} {K : Core A → Prop} {H : Host} {α : Type}

/-! ## Submission -/

theorem requestSubmission_writes {order : Order} {reason requestId pendingReason pendingId : String}
    (hP : P order.orderId) : Writes A P (fun c => Current order c ∧ order.state = .new)
      (requestSubmission H order reason requestId pendingReason pendingId)
      fun _ => Current { order with state := .pendingUnknown } := by
  rintro w ⟨hcur, hnew⟩
  have hwrite : ∀ {c c' : Core A}, Appended c order.accountId .orderUpdated
      (.orderUpdated ⟨{ order with state := .submitted }, reason, none⟩) requestId c' → Write P c c' :=
    fun h => h.writes rfl fun _ _ hs => setsState_updated hs ▸ hP
  refine (requestSubmission_spec hcur hnew).weaken (fun _ w' h => ?_) fun _ w' h => ?_
  · obtain ⟨c, v, h₁, h₂⟩ := h
    have hmark : Write P c w'.core := h₂.writes rfl fun _ _ hs => setsState_change hs ▸ hP
    refine ⟨(ReflTransGen.single (hwrite h₁)).tail hmark, ?_⟩
    exact (hcur.updated h₁ rfl).moved h₂ rfl
  · rcases h with h | h
    · rw [h]
      exact Halts.refl _
    · exact ⟨w.core, .refl, Or.inr (hwrite h)⟩

/-- What sending an order makes of it: the venue's answer, or doubt. -/
def Sends (order o : Order) : Prop :=
  ∃ s, o = { order with state := s } ∧
    (s = order.state ∨ order.state = .new ∧ (s = .accepted ∨ s = .rejected ∨ s = .pendingUnknown))

theorem Sends.refl (order : Order) : Sends order order := ⟨order.state, rfl, Or.inl rfl⟩

theorem submitAck_target {status message reason : String} {kind : EventKind}
    (h : submitAck status message = .ok (kind, reason)) : ∃ s, stateTarget kind = some s ∧
      (s = .accepted ∨ s = .rejected ∨ s = .pendingUnknown) := by
  unfold submitAck at h
  split at h
  · cases h; exact ⟨_, rfl, Or.inl rfl⟩
  · cases h; exact ⟨_, rfl, Or.inr (Or.inl rfl)⟩
  · cases h; exact ⟨_, rfl, Or.inr (Or.inr rfl)⟩
  · simp [management] at h

theorem recordSubmitAck_writes {order : Order} {ack : VenueAck} {command : String}
    (hP : P order.orderId) (hnew : order.state = .new) :
    Writes A P (Current { order with state := .pendingUnknown }) (recordSubmitAck H order ack command)
      fun _ c => ∃ o, Current o c ∧ Sends order o := by
  refine Walks.lift.bind fun plan => ?_
  refine Walks.bind (Q := fun _ c => ∃ o, Current o c ∧ Sends order o) ?_ fun _ =>
    Walks.pure fun _ hc => hc
  refine append_writes rfl (fun _ _ hs => setsState_change hs ▸ hP) (fun c c' hc h => ?_) fun c hc _ => ?_
  · obtain ⟨s, ht, hs⟩ := submitAck_target hc.2
    exact ⟨_, hc.1.moved h ht, s, rfl, Or.inr ⟨hnew, hs⟩⟩
  · exact ⟨_, hc.1, _, rfl, Or.inr ⟨hnew, Or.inr (Or.inr rfl)⟩⟩

/-- The order is read back as it is. -/
theorem getOrder_writes {id : String} {R : Order → Prop} (hid : ∀ o, R o → o.orderId = id) :
    Writes A P (fun c => ∃ o, Current o c ∧ R o) (getOrder H id) fun o c => Current o c ∧ R o := by
  refine getOrder_walks.post ?_
  rintro o c ⟨⟨p, hcur, hR⟩, ho⟩
  cases hid p hR
  rw [hcur.read ho]
  exact ⟨hcur, hR⟩

theorem Sends.orderId {order o : Order} (h : Sends order o) : o.orderId = order.orderId := by
  obtain ⟨s, rfl, -⟩ := h
  rfl

/-- Send, record what the venue answered, read the order back. -/
theorem send_writes {order : Order} {venue : VenueOrder} {command : String} {unknown : LErr}
    (hP : P order.orderId) (hnew : order.state = .new) :
    Writes A P (Current { order with state := .pendingUnknown }) (do
        let answer ← sendOrder H order venue
        match answer with
        | none => Prog.fail unknown
        | some ack => do
          recordSubmitAck H order ack command
          getOrder H order.orderId)
      fun o c => Current o c ∧ Sends order o := by
  refine (broker_writes fun c hc => hc).bind fun answer => ?_
  cases answer with
  | none => exact Walks.fail
  | some ack =>
      refine ((recordSubmitAck_writes hP hnew).pre fun c hc => hc.1).bind fun _ => ?_
      exact getOrder_writes fun o h => h.orderId

theorem submitNative_writes {order : Order} (hP : P order.orderId) :
    Writes A P (Current order) (submitNative H order) fun o c => Current o c ∧ Sends order o := by
  refine Walks.ite (fun _ => Walks.pure fun c hc => ⟨hc, .refl _⟩) fun hnew => ?_
  rw [not_not] at hnew
  refine requireNative_writes.bind fun _ => requireTif_writes.bind fun _ => ?_
  refine ((requestSubmission_writes hP).pre fun c hc => ⟨hc, hnew⟩).bind fun _ => ?_
  refine (Walks.still still_venueOrder.attempt).bind fun built => ?_
  cases built with
  | error => exact Walks.fail
  | ok venue => exact send_writes hP hnew

/-- An emulation that starts leaves its order as it is. -/
theorem beginEmulation_writes {order : Order} {t : OrderType} :
    Writes A P (Current order) (beginEmulation H order t) fun o c => Current o c ∧ o = order := by
  refine requireTif_writes.bind fun _ => context_walks.bind fun ctx => ?_
  have hlast : Writes A P (Current order) (getOrder H order.orderId)
      fun o c => Current o c ∧ o = order := by
    refine getOrder_walks.post fun o c h => ?_
    rw [h.1.read h.2]
    exact ⟨h.1, rfl⟩
  refine Walks.ite (fun _ => ?_) fun _ => hlast.pre fun c hc => hc.1
  refine Walks.bind (Q := fun _ => Current order) ?_ fun _ => hlast
  refine append_writes rfl (fun _ _ h => by cases h) (fun c c' hc h => ?_) fun c hc _ => hc.1
  obtain ⟨e, -, -, hp, happ⟩ := h.ledger
  exact .of_held (h.at hc.1.at) ((Ledger.append_kept happ hp _ _).trans hc.1.held)

theorem startEmulation_writes {order : Order} :
    Writes A P (Current order) (startEmulation H order) fun o c => Current o c ∧ o = order := by
  refine (Walks.still still_call).bind fun caps => (Walks.still still_lift).bind fun plan => ?_
  cases plan with
  | ret => exact Walks.pure fun c hc => ⟨hc, rfl⟩
  | refuseLimit => exact plannedRefusal_writes
  | limit => exact beginEmulation_writes
  | trigger => exact triggerOrderType_writes.bind fun t => beginEmulation_writes

theorem dispatchSubmit_writes {order : Order} (hP : P order.orderId) :
    Writes A P (Current order) (dispatchSubmit H order) fun o c => Current o c ∧ Sends order o := by
  refine (Walks.still still_call).bind fun caps => Walks.ite (fun _ => ?_) fun _ =>
    submitNative_writes hP
  refine startEmulation_writes.post ?_
  rintro o c ⟨hcur, rfl⟩
  exact ⟨hcur, .refl _⟩

theorem ensureStored_writes {order : Order} (hknown : ∀ c, K c → ∃ x, c.ledger.context? order.orderId = some x) :
    Writes A P K (ensureStored H order) fun _ => K := by
  refine (Walks.still still_lift).bind fun _ => findOrder_walks.bind fun known => ?_
  cases known with
  | none =>
      intro w hw
      obtain ⟨x, hx⟩ := hknown _ hw.1
      rw [hw.2.1 rfl] at hx
      cases hx
  | some _ => exact (Walks.still (still_read.bind fun _ => still_lift)).post fun _ _ h => h.1

/-- Submitting an order that the ledger has writes to that order alone. -/
theorem submit_writes {order : Order} (hP : P order.orderId) :
    Writes A P (Current order) (submit H order) fun o c => Current o c ∧ Sends order o := by
  refine (ensureStored_writes fun c hc => ?_).bind fun _ => context_walks.bind fun ctx => ?_
  · obtain ⟨x, hx, -⟩ := hc
    exact ⟨x, hx⟩
  have hdispatch : Writes A P (fun c => Current order c ∧ c.ledger.context? order.orderId = some ctx)
      (dispatchSubmit H ctx.order) fun o c => Current o c ∧ Sends order o := by
    rintro w ⟨⟨x, hx, rfl⟩, hctx⟩
    rw [hx] at hctx
    cases hctx
    exact dispatchSubmit_writes hP w ⟨ctx, hx, rfl⟩
  cases ctx.order.parentOrderId with
  | none => exact hdispatch
  | some parentId =>
      refine (Walks.still still_read).bind fun parent => (Walks.still still_read).bind fun st => ?_
      exact Walks.ite (fun _ => plannedRefusal_writes) fun _ => hdispatch

/-! ## Replaces -/

theorem Appended.byCommand_ne {c c' : Core A} {a command other : String} {kind : EventKind}
    {payload : Obj} (h : Appended c a kind payload command c') (hne : other ≠ command) :
    c'.ledger.byCommand other = c.ledger.byCommand other := by
  obtain ⟨e, -, -, -, hcmd, happ⟩ := h.stored
  obtain ⟨ev, -, -, -, hevcmd, hl, -⟩ := Ledger.append_state (Core.append_fields happ).1
  have hlast : List.find? (fun e : Event => decide (e.commandId = some other)) [ev] = none := by
    simp [hevcmd, hcmd, Ne.symm hne]
  rw [Ledger.byCommand, hl, List.find?_append, hlast, Option.or_none, Ledger.byCommand]

/-- No request of this replace is stored. -/
def Unrequested (command : String) (c : Core A) : Prop :=
  c.ledger.byCommand (command ++ ":pending") = none ∧ c.ledger.byCommand (command ++ ":noop") = none

/-- Nothing of this replace is stored. -/
structure Fresh (command : String) (c : Core A) : Prop where
  requests : Unrequested command c
  accepted : c.ledger.byCommand (command ++ ":accepted") = none
  emulated : c.ledger.byCommand (command ++ ":local") = none

/-- The venue accepts every replace it answers. -/
def AcceptsReplaces (H : Host) : Prop :=
  ∀ n id changes ack, H.replace n id changes = .ok ack → ack.status = "ACCEPTED"

/-- What a replace leaves: an order that is live if `live`, with the quantity asked for if `sized`. -/
def Resized (live sized : Prop) (order : Order) (changes : OrderChanges) (c : Core A) : Prop :=
  ∃ o, Current o c ∧ o.orderId = order.orderId ∧ (live → terminal o.state = false) ∧
    (sized → o.quantity = changes.newQuantity.getD order.quantity)

section Replace

variable {live sized : Prop} {order : Order} {changes : OrderChanges} {command : String}

theorem replaceEmulatedStop_writes (hP : P order.orderId) (hnew : order.state = .new) :
    Writes A P (fun c => Current order c ∧ (sized → Fresh command c))
      (replaceEmulatedStop H order changes command)
      fun _ => Resized live sized order changes := by
  have hlive : terminal order.state = false := by rw [hnew]; rfl
  refine read_walks.bind fun prior => ?_
  cases prior with
  | some e =>
      refine (Walks.still (still_lift.bind fun _ => still_read)).post fun _ c hc => ?_
      refine ⟨order, hc.1.1, rfl, fun _ => hlive, fun hs => ?_⟩
      rw [(hc.1.2 hs).emulated] at hc
      cases Except.ok.inj hc.2
  | none =>
      refine (Walks.still still_read).bind fun ctx => (Walks.still still_lift).bind fun _ => ?_
      refine (Walks.still still_lift).bind fun _ => ?_
      refine Walks.bind (Q := fun _ => Resized live sized order changes) ?_ fun _ =>
        Walks.still still_read
      refine append_writes rfl (fun _ _ hs => setsState_updated hs ▸ hP) (fun c c' hc h => ?_) ?_
      · exact ⟨_, hc.1.1.updated h rfl, rfl, fun _ => hlive, fun _ => rfl⟩
      · rintro c ⟨-, hnone⟩ ⟨prior, hprior, -⟩
        rw [Except.ok.inj hnone] at hprior
        cases hprior

theorem recordReplaceAck_writes {ack : VenueAck} (hP : P order.orderId)
    (hlive : terminal order.state = false) (hack : sized → ack.status = "ACCEPTED") :
    Writes A P (fun c => Current { order with state := .pendingUnknown } c ∧
        (sized → c.ledger.byCommand (command ++ ":accepted") = none))
      (recordReplaceAck H order (replaceTerms order changes).1 command ack)
      fun _ => Resized live sized order changes := by
  have hread : ∀ {Q : Core A → Prop}, Writes A P Q (getOrder H order.orderId) fun _ => Q :=
    Walks.still still_read
  unfold recordReplaceAck
  dsimp only
  split
  · -- pending: the venue has not said yes
    rename_i hplan
    have hsized : ¬ sized := fun hs => by simp [replaceAck, hack hs] at hplan
    refine Walks.bind (Q := fun _ => Resized live sized order changes) ?_ fun _ => hread
    refine append_writes rfl (fun _ _ hs => setsState_change hs ▸ hP) (fun c c' hc h => ?_) ?_
    · exact ⟨_, hc.1.moved h rfl, rfl, fun _ => rfl, fun hs => absurd hs hsized⟩
    · exact fun c hc _ => ⟨_, hc.1, rfl, fun _ => rfl, fun hs => absurd hs hsized⟩
  · refine Walks.bind (Q := fun _ _ => True) ?_ fun _ => Walks.bind (Q := fun _ _ => True) ?_ fun _ =>
      Walks.fail
    · exact (refuse_writes fun _ _ _ _ => trivial).pre fun _ _ => trivial
    · refine Walks.bind (Q := fun _ _ => True) ?_ fun _ => Walks.pure fun _ _ => trivial
      exact append_touch rfl fun _ _ hs => by rw [setsState_updated hs]; exact hP
  · refine Walks.bind (Q := fun _ => Resized live sized order changes) ?_ fun _ => hread
    refine append_writes rfl (fun _ _ hs => setsState_updated hs ▸ hP) (fun c c' hc h => ?_) ?_
    · exact ⟨_, hc.1.updated h rfl, rfl, fun _ => hlive, fun _ => rfl⟩
    · rintro c hc ⟨prior, hprior, -⟩
      refine ⟨_, hc.1, rfl, fun _ => rfl, fun hs => ?_⟩
      rw [hc.2 hs] at hprior
      cases hprior

theorem replaceAtVenue_writes {ctx : Context} (hP : P ctx.order.orderId)
    (hlive : terminal ctx.order.state = false) (haccepts : sized → AcceptsReplaces H) :
    Writes A P (fun c => Current ctx.order c ∧ c.ledger.byCommand (command ++ ":pending") = none ∧
        (sized → c.ledger.byCommand (command ++ ":accepted") = none))
      (replaceAtVenue H ctx (replaceTerms ctx.order changes).1 changes command)
      fun _ => Resized live sized ctx.order changes := by
  refine (Walks.still still_lift).bind fun venueId => (note_writes fun c hc => hc).bind fun _ => ?_
  refine Walks.bind (Q := fun _ c => Current { ctx.order with state := .pendingUnknown } c ∧
    (sized → c.ledger.byCommand (command ++ ":accepted") = none)) ?_ fun _ => ?_
  · refine append_writes rfl (fun _ _ hs => setsState_change hs ▸ hP) (fun c c' hc h => ?_) ?_
    · refine ⟨hc.1.moved h rfl, fun hs => ?_⟩
      rw [h.byCommand_ne fun heq => ?_]
      · exact hc.2.2 hs
      · rw [String.append_right_inj] at heq
        exact absurd heq (by decide)
    · rintro c hc ⟨prior, hprior, -⟩
      rw [hc.2.1] at hprior
      cases hprior
  refine (broker_writes fun c hc => hc).bind fun answer => ?_
  cases answer with
  | none => exact Walks.fail
  | some ack =>
      refine Walks.assume (fun c hc => hc.2 ack rfl) fun hn => ?_
      obtain ⟨n, hn⟩ := hn
      exact (recordReplaceAck_writes hP hlive fun hs => haccepts hs n _ _ ack hn).pre fun c hc => hc.1

theorem replaceFresh_writes {ctx : Context} (hP : P ctx.order.orderId)
    (haccepts : sized → AcceptsReplaces H) :
    Writes A P (fun c => Current ctx.order c ∧ Unrequested command c ∧ (sized → Fresh command c))
      (replaceFresh H ctx changes command) fun _ => Resized live sized ctx.order changes := by
  refine Walks.lift.bind fun _ => Walks.assume (fun c hc => hc.2) fun hstate => ?_
  have hlive : terminal ctx.order.state = false := by
    simp only [replaceState, bind_eq_ok, refuseIf_eq_ok, Bool.or_eq_true, not_or] at hstate
    obtain ⟨_, ⟨-, h⟩, -⟩ := hstate
    simpa using h
  refine (Walks.still still_lift).bind fun _ => (Walks.still still_lift).bind fun _ => ?_
  refine Walks.ite (fun hsame => ?_) fun _ => ?_
  · refine Walks.bind (Q := fun _ => Resized live sized ctx.order changes) ?_ fun _ =>
      Walks.pure fun _ hc => hc
    have hquantity : ctx.order.quantity = changes.newQuantity.getD ctx.order.quantity := by
      have h := hsame
      simp only [replaceTerms, Order.same, Bool.and_eq_true, beq_iff_eq] at h
      exact h.1.1.1.1.1.1.1.1.1.2.symm
    refine append_writes rfl (fun _ _ hs => setsState_updated hs ▸ hP) (fun c c' hc h => ?_) ?_
    · exact ⟨_, hc.1.1.updated h rfl, rfl, fun _ => hlive, fun _ => hquantity⟩
    · exact fun c hc _ => ⟨_, hc.1.1, rfl, fun _ => hlive, fun _ => hquantity⟩
  · exact (replaceAtVenue_writes hP hlive haccepts).pre fun c hc =>
      ⟨hc.1.1, hc.1.2.1.1, fun hs => (hc.1.2.2 hs).accepted⟩

/-- A replace of an order that is live, or whose requests are not stored. -/
theorem replace_writes (hP : P order.orderId) (haccepts : sized → AcceptsReplaces H) :
    Writes A P (fun c => Current order c ∧
        (live → terminal order.state = true → Unrequested command c) ∧ (sized → Fresh command c))
      (replace H order.orderId changes command) fun _ => Resized live sized order changes := by
  refine getOrder_walks.bind fun found => context_walks.bind fun ctx => ?_
  refine Walks.assume (fun c hc => hc.1.1.1.read hc.1.2) fun hfound => ?_
  subst hfound
  refine Walks.assume (fun c hc => show ctx.order = found from ?_) fun hctx => ?_
  · obtain ⟨x, hx, h⟩ := hc.1.1.1
    rw [hc.2] at hx
    cases hx
    exact h
  refine Walks.ite (fun hlocal => ?_) fun _ => ?_
  · have hnew : found.state = .new := by
      simp only [localReplace, Bool.and_eq_true, decide_eq_true_eq] at hlocal
      exact hlocal.1.1
    exact (replaceEmulatedStop_writes hP hnew).pre fun c hc => ⟨hc.1.1.1, hc.1.1.2.2⟩
  refine read_walks.bind fun request => read_walks.bind fun noop => ?_
  -- a stored request answers a live order, or one whose replace is not fresh
  have hstored : ∀ c : Core A, ((Current found c ∧ (live → terminal found.state = true → Unrequested command c) ∧
      (sized → Fresh command c)) ∧ ¬ Unrequested command c) → Resized live sized found changes c := by
    rintro c ⟨⟨hcur, hl, hs⟩, hun⟩
    refine ⟨found, hcur, rfl, fun h => ?_, fun h => absurd (hs h).requests hun⟩
    by_contra ht
    exact hun (hl h (Bool.not_eq_false _ ▸ ht))
  cases request with
  | some prior =>
      refine (Walks.still (still_lift.bind fun _ => still_pure)).post fun _ c hc => hstored c ⟨hc.1.1.1.1, ?_⟩
      intro hun
      rw [hun.1] at hc
      cases Except.ok.inj hc.1.2
  | none =>
      cases noop with
      | some prior =>
          refine (Walks.still (still_lift.bind fun _ => still_pure)).post fun _ c hc =>
            hstored c ⟨hc.1.1.1.1, ?_⟩
          intro hun
          rw [hun.2] at hc
          cases Except.ok.inj hc.2
      | none =>
          subst hctx
          exact (replaceFresh_writes hP haccepts).pre fun c hc =>
            ⟨hc.1.1.1.1.1, ⟨Except.ok.inj hc.1.2, Except.ok.inj hc.2⟩, hc.1.1.1.1.2.2⟩

end Replace

end Functions

end TradeEngine.Oms
