import TradeEngine.Lib.Walk
import TradeEngine.Oms.Lemmas.Ledger

/-!
# The steps of a run

Everything the manager can do to the ledger and the broker, with the guard it has checked by then.
The commands are walks of these steps; the properties of whole runs are invariants of them.
-/

namespace TradeEngine.Oms

open Lib Relation

variable {A : Arith}

/-! ## Guards -/

/-- The states that say nothing of what the venue holds. -/
def silent : OrderState → Bool
  | .new | .pendingUnknown | .cancelled => true
  | _ => false

/-- The state an event writes, and the order it writes it to. Fills are not counted. -/
def setsState (kind : EventKind) : Obj → Option (String × OrderState)
  | .orderUpdated u => some (u.order.orderId, u.order.state)
  | .stateChange c => (stateTarget kind).map fun s => (c.orderId, s)
  | _ => none

/-- A payload that brings no new order. -/
def bringsNone : Obj → Bool
  | .order _ | .ordersCreated _ => false
  | _ => true

namespace Ledger

/-- The account recorded the submission of the order as that of a triggered emulation. -/
def Routed (l : Ledger A) (account orderId : String) : Prop :=
  ∃ ev ∈ l.events, ev.account = account ∧ ∃ u t, ev.payload = .orderUpdated u ∧
    u.order.orderId = orderId ∧ u.order.state = .submitted ∧
    u.reason = s!"Emulated {OrderType.value t} submission requested"

/-- Every other order of the order's parent and group has ended. -/
def Alone (l : Ledger A) (o : Order) : Prop :=
  ∀ p ∈ siblings o (l.state o.accountId).orders.values, terminal p.state = true

/-- An order that went out by its trigger is alone. -/
def Exclusive (l : Ledger A) (account orderId : String) : Prop :=
  l.Routed account orderId → ∀ o, l.held account orderId = some o → l.Alone o

/-- No id is held in two accounts. -/
def Separated (l : Ledger A) : Prop :=
  ∀ a b id o p, l.held a id = some o → l.held b id = some p → a = b

end Ledger

namespace Core

/-- The venue has the order: it was sent, found in a read-back, or filled. -/
def Received (c : Core A) (account orderId : String) : Prop :=
  (∃ call ∈ c.trace, call.act = .submit account orderId ∨ call.act = .found orderId) ∨
    ∃ ev ∈ c.ledger.events, ∃ f, ev.payload = .fill f ∧ f.orderId = orderId ∧ ev.account = account

/-- The order may be recorded in this state: the venue has it, or it is (or was, before a replace) in
this state already. -/
def Warranted (c : Core A) (account orderId : String) (s : OrderState) : Prop :=
  c.Received account orderId ∨ c.ledger.HeldIn account orderId s ∨
    ∃ call ∈ c.trace, call.act = .replaceOrder account orderId ∧ call.ledger.HeldIn account orderId s

/-- Everything noted happened before the order left `NEW`. -/
def Unsent (c : Core A) (account orderId : String) : Prop :=
  ∃ l : Ledger A, l.HeldIn account orderId .new ∧ ∀ call ∈ c.trace, call.ledger.events <+: l.events

def Ordinary (c : Core A) (account : String) (kind : EventKind) (payload : Obj) : Prop :=
  bringsNone payload = true ∧ ∀ id s, setsState kind payload = some (id, s) → silent s = false →
    c.Warranted account id s

/-- What the manager has seen to before it makes a call. -/
def Permitted (c : Core A) : Act → Prop
  | .submit a id => c.ledger.HeldIn a id .pendingUnknown ∧ c.Unsent a id ∧
      (c.ledger.Separated → c.ledger.Exclusive a id)
  | .cancel a id => c.ledger.HeldIn a id .pendingUnknown ∨ ∃ call ∈ c.trace, ∃ command,
      call.act = .cancelOrder a id command ∧ call.ledger.byCommand (command ++ ":pending") ≠ none
  | .replace a id => c.ledger.HeldIn a id .pendingUnknown
  | _ => True

end Core

/-! ## Steps -/

/-- One step. `G` says which orders may be created, in which account of which ledger. A submission
request and its pending marker are one step. -/
inductive Step (G : Ledger A → String → List Order → Prop) : Core A → Core A → Prop where
  | event {c c' : Core A} {e : EventFields} (ho : c.Ordinary e.account e.kind e.payload)
      (h : c.append e = .ok c') : Step G c c'
  | create {c c' : Core A} {e : EventFields} {x : OrdersCreated} (hp : e.payload = .ordersCreated x)
      (hG : G c.ledger e.account x.orders) (h : c.append e = .ok c') : Step G c c'
  | mark {c c₁ c₂ : Core A} {request marker : EventFields} {u : OrderUpdated}
      {change : OrderStateChange} (hr : request.payload = .orderUpdated u)
      (hm : marker.payload = .stateChange change) (hk : marker.kind = .orderPending)
      (hid : change.orderId = u.order.orderId) (ha : marker.account = request.account)
      (h₁ : c.append request = .ok c₁) (h₂ : c₁.append marker = .ok c₂) : Step G c c₂
  | note {c : Core A} {act : Act} (h : c.Permitted act) : Step G c (c.note act)

/-- The reasons a submission request is recorded under. -/
def submissionReasons : List String :=
  "Order submission requested" ::
    [OrderType.market, .limit, .stop, .stopLimit, .trail].map
      fun t => s!"Emulated {t.value} submission requested"

/-- The update of a submission request: `SUBMITTED`, under a submission's reason. -/
def requestsSubmission : Obj → Bool
  | .orderUpdated u => u.order.state = .submitted && submissionReasons.contains u.reason
  | _ => false

/-- A step cut short: the submission request without its marker. -/
def Requested (c c' : Core A) : Prop :=
  ∃ e, requestsSubmission e.payload = true ∧ c.append e = .ok c'

section Append

variable {c c' : Core A} {e : EventFields}

theorem Core.append_fields (h : c.append e = .ok c') :
    c.ledger.append e = .ok c'.ledger ∧ c'.trace = c.trace := by
  unfold Core.append at h
  split at h
  · cases h
  · rename_i l hl
    cases h
    exact ⟨hl, rfl⟩

theorem Core.append_extends (h : c.append e = .ok c') : c.ledger.events <+: c'.ledger.events :=
  Ledger.append_extends (Core.append_fields h).1

end Append

theorem Step.extends {G : Ledger A → String → List Order → Prop} {c c' : Core A} (h : Step G c c') :
    c.ledger.events <+: c'.ledger.events ∧ c.trace <+: c'.trace := by
  cases h with
  | event _ h => exact ⟨Core.append_extends h, (Core.append_fields h).2 ▸ List.prefix_rfl⟩
  | create _ _ h => exact ⟨Core.append_extends h, (Core.append_fields h).2 ▸ List.prefix_rfl⟩
  | mark _ _ _ _ _ h₁ h₂ =>
      refine ⟨(Core.append_extends h₁).trans (Core.append_extends h₂), ?_⟩
      rw [(Core.append_fields h₂).2, (Core.append_fields h₁).2]
  | note => exact ⟨List.prefix_rfl, List.prefix_append _ _⟩

/-! ## What stays true along a run -/

section Mono

variable {c c' : Core A} {a id : String}

theorem Core.Received.mono (h : c.Received a id) (hl : c.ledger.events <+: c'.ledger.events)
    (ht : c.trace <+: c'.trace) : c'.Received a id := by
  rcases h with ⟨call, hcall, hact⟩ | ⟨ev, hev, hf⟩
  · exact Or.inl ⟨call, ht.subset hcall, hact⟩
  · exact Or.inr ⟨ev, hl.subset hev, hf⟩

variable {G : Ledger A → String → List Order → Prop}

theorem stable_noted {P : Call A → Prop} : Stable (Step G) fun c => ∃ call ∈ c.trace, P call := by
  rintro c c' h ⟨call, hcall, hP⟩
  exact ⟨call, h.extends.2.subset hcall, hP⟩

theorem stable_known (id : String) :
    Stable (Step G) fun c => ∃ x, c.ledger.context? id = some x := by
  rintro c c' h ⟨x, hx⟩
  exact Ledger.known_of_held (Ledger.held_mono ⟨_, (Ledger.context_held hx).1⟩ h.extends.1)

end Mono

/-! ## Walks of the host's calls -/

/-- A walk of the manager. -/
abbrev Run (G : Ledger A → String → List Order → Prop) {α : Type} (K : Core A → Prop) (p : M A α)
    (Q : α → Core A → Prop) : Prop := Walks World.core (Step G) Requested K p Q

/-- A walk from anywhere. -/
abbrev Free (G : Ledger A → String → List Order → Prop) {α : Type} (p : M A α) : Prop :=
  Run G (fun _ => True) p fun _ _ => True

section Calls

variable {G : Ledger A → String → List Order → Prop} {S T : Core A → Core A → Prop} {α : Type}
  {K : Core A → Prop} {H : Host}

theorem Free.over {p : M A α} (h : Free G p) : Run G K p fun _ _ => True := h.pre fun _ _ => trivial

theorem Free.of_still {p : M A α} (h : Still World.core p) : Free G p := Walks.still h

theorem still_lift {x : R α} : Still World.core (Prog.lift x : M A α) := fun _ => rfl

theorem still_pure {x : α} : Still World.core (pure x : M A α) := fun _ => rfl

theorem still_call {f : Nat → α} : Still World.core (call H f : M A α) := fun _ => rfl

theorem call_walks {f : Nat → α} : Walks World.core S T K (call H f) fun x c => K c ∧ ∃ n, f n = x := by
  intro w hw
  unfold call
  split
  · exact Halts.refl _
  · exact ⟨.refl, hw, _, rfl⟩

theorem still_read {f : Ledger A → R α} : Still World.core (read H f : M A α) :=
  still_call.bind fun _ => Still.bind (fun _ => rfl) fun _ => still_lift

theorem read_spec (f : Ledger A → R α) (w : World A) :
    Prog.Post (fun x w' => w'.core = w.core ∧ f w.core.ledger = .ok x) (fun _ w' => w'.core = w.core)
      (read H f w) := by
  refine Prog.post_bind.mpr ((still_call.spec w).weaken (fun _ w' h => ?_) fun _ _ h => h)
  refine Prog.post_bind.mpr (Prog.Post.get (Prog.Post.lift (fun x hx => ⟨h, ?_⟩) fun _ _ => h))
  exact h ▸ hx

theorem read_walks {f : Ledger A → R α} :
    Walks World.core S T K (read H f) fun x c => K c ∧ f c.ledger = .ok x := by
  intro w hw
  refine (read_spec f w).weaken (fun x w' h => ?_) fun _ w' h => ?_
  · rw [h.1]
    exact ⟨.refl, hw, h.2⟩
  · rw [h]
    exact Halts.refl _

theorem still_utcNow : Still World.core (utcNow H : M A DateTime) :=
  still_call.bind fun _ => still_lift.bind fun _ => still_pure

theorem getOrder_walks {id : String} :
    Walks World.core S T K (getOrder H id) fun o c => K c ∧ c.ledger.getOrder id = .ok o := read_walks

theorem context_walks {id : String} :
    Walks World.core S T K (context H id) fun x c => K c ∧ c.ledger.context? id = some x :=
  read_walks.post fun _ _ h => ⟨h.1, Ledger.context_some h.2⟩

theorem accountState_walks {a : String} :
    Walks World.core S T K (accountState H a) fun st c => K c ∧ c.ledger.state a = st :=
  read_walks.post fun _ _ h => ⟨h.1, Except.ok.inj h.2⟩

theorem note_walks (act : Act) {Q : Core A → Prop} (h : ∀ c, K c → c.Permitted act)
    (hQ : ∀ c, K c → Q (c.note act)) : Run G K (note act) fun _ => Q :=
  fun _ hw => ⟨.single (.note (h _ hw)), hQ _ hw⟩

theorem broker_walks (act : Act) {f : Nat → Net} (h : ∀ c, K c → c.Permitted act) :
    Run G K (broker H act f) fun _ c => ∃ c₀, K c₀ ∧ c = c₀.note act := by
  refine (Walks.still still_call).bind fun answer => ?_
  refine (note_walks act (Q := fun c => ∃ c₀, K c₀ ∧ c = c₀.note act) h fun c hc => ⟨c, hc, rfl⟩).bind
    fun _ => ?_
  cases answer with
  | ok ack => exact Walks.pure fun _ hc => hc
  | failed => exact Walks.pure fun _ hc => hc
  | raised => exact Walks.fail

/-! ## Appends -/

/-- The event was stored under a command id not used before. -/
structure Appended (c : Core A) (account : String) (kind : EventKind) (payload : Obj)
    (command : String) (c' : Core A) : Prop where
  unused : c.ledger.byCommand command = none
  stored : ∃ e : EventFields, e.account = account ∧ e.kind = kind ∧ e.payload = payload ∧
    e.commandId = some command ∧ c.append e = .ok c'

/-- The command id is that of the same event, stored before. -/
def Replayed (c : Core A) (account : String) (kind : EventKind) (payload : Obj)
    (command : String) : Prop :=
  ∃ prior, c.ledger.byCommand command = some prior ∧ prior.account = account ∧ prior.kind = kind ∧
    payloadEqual prior.payload payload = true

theorem store_spec (e : EventFields) (w : World A) :
    Prog.Post (fun _ w' => w.core.append e = .ok w'.core) (fun _ w' => w'.core = w.core)
      (store H e w) := by
  refine Prog.post_bind.mpr ?_
  unfold call
  split
  · exact rfl
  · refine Prog.post_bind.mpr (Prog.Post.get (Prog.post_bind.mpr ?_))
    refine Prog.Post.lift (fun c hc => Prog.post_bind.mpr ?_) fun _ _ => rfl
    obtain ⟨ev, -, -, -, -, hl, -⟩ := Ledger.append_state (Core.append_fields hc).1
    have hlast : c.ledger.events.getLast? = some ev := by rw [hl, List.getLast?_concat]
    change Prog.Post _ _ (Prog.lift _ _)
    rw [hlast]
    exact hc

theorem append_spec (account : String) (kind : EventKind) (payload : Obj) (command : String)
    (w : World A) :
    Prog.Post (fun _ w' => Appended w.core account kind payload command w'.core ∨
        Replayed w.core account kind payload command ∧ w'.core = w.core)
      (fun _ w' => w'.core = w.core) (append H account kind payload command w) := by
  unfold append
  refine Prog.post_bind.mpr (Prog.Post.lift (fun _ _ => ?_) fun _ _ => rfl)
  refine Prog.post_bind.mpr ((still_utcNow.spec w).weaken (fun now w₁ h₁ => ?_) fun _ _ h => h)
  rw [← h₁]
  refine Prog.post_bind.mpr (Prog.Post.lift (fun _ _ => ?_) fun _ _ => rfl)
  refine Prog.post_bind.mpr (Prog.Post.lift (fun ts _ => ?_) fun _ _ => rfl)
  refine Prog.post_bind.mpr (Prog.Post.lift (fun _ _ => ?_) fun _ _ => rfl)
  refine Prog.post_bind.mpr ((read_spec _ w₁).weaken (fun existing w₂ h₂ => ?_) fun _ _ h => h)
  obtain ⟨h₂, hex⟩ := h₂
  rw [← h₂] at hex ⊢
  cases existing with
  | some prior =>
      refine Prog.post_bind.mpr (Prog.Post.lift (fun _ hrep => ?_) fun _ _ => rfl)
      unfold appendReplay at hrep
      split at hrep
      · rename_i heq
        exact Or.inr ⟨⟨prior, Except.ok.inj hex, heq.1, heq.2.1, heq.2.2⟩, rfl⟩
      · simp [conflict] at hrep
  | none =>
      refine (store_spec _ w₂).weaken (fun ev w' hs => ?_) fun _ _ h => h
      exact Or.inl ⟨Except.ok.inj hex, _, rfl, rfl, rfl, rfl, hs⟩

/-- An append is a step, or a replay that changes nothing. -/
theorem append_walks {account : String} {kind : EventKind} {payload : Obj} {command : String}
    {Q : Core A → Prop}
    (happ : ∀ c c', K c → Appended c account kind payload command c' → S c c' ∧ Q c')
    (hrep : ∀ c, K c → Replayed c account kind payload command → Q c) :
    Walks World.core S T K (append H account kind payload command) fun _ => Q := by
  intro w hw
  refine (append_spec account kind payload command w).weaken (fun _ w' h => ?_) fun _ w' h => ?_
  · rcases h with h | ⟨h, hw'⟩
    · obtain ⟨hstep, hQ⟩ := happ _ _ hw h
      exact ⟨.single hstep, hQ⟩
    · rw [hw']
      exact ⟨.refl, hrep _ hw h⟩
  · rw [h]
    exact Halts.refl _

theorem Appended.step {account : String} {kind : EventKind} {payload : Obj} {command : String}
    {c c' : Core A} (h : Appended c account kind payload command c')
    (ho : c.Ordinary account kind payload) : Step G c c' := by
  obtain ⟨e, rfl, rfl, rfl, -, happ⟩ := h.stored
  exact .event ho happ

/-- An append whose guard holds, for what every step keeps. -/
theorem append_keeps {account : String} {kind : EventKind} {payload : Obj} {command : String}
    (hK : Stable (Step G) K) (ho : ∀ c, K c → c.Ordinary account kind payload) :
    Run G K (append H account kind payload command) fun _ => K :=
  append_walks (fun c _ hc h => ⟨h.step (ho c hc), hK _ _ (h.step (ho c hc)) hc⟩) fun _ hc _ => hc

/-- An append that sets no state the venue would have to warrant. -/
theorem append_silent {account : String} {kind : EventKind} {payload : Obj} {command : String}
    (hb : bringsNone payload = true)
    (hs : ∀ id s, setsState kind payload = some (id, s) → silent s = true) :
    Free G (append H account kind payload command) :=
  append_keeps (fun _ _ _ _ => trivial) fun _ _ =>
    ⟨hb, fun id s h hf => by rw [hs id s h] at hf; cases hf⟩

end Calls

end TradeEngine.Oms
