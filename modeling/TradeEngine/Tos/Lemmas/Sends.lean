import TradeEngine.Lib.Walk
import TradeEngine.Tos.Broker

/-!
# What the calls do to the queue and the sends

Of the broker only the desk matters here: the queue, the keys, the halt and the sends. Every call is
a path of moves on it, and a drain is one move, because what it took from the queue is in no field.
-/

namespace TradeEngine.Tos

open Lib Prog Relation

variable {A : Arith} {sha256 : String → String} {H : Host} {α β : Type}

/-! ## What a program that returned did -/

@[simp] theorem pure_ok {a b : α} {w w' : World} :
    (pure a : M α) w = (.ok b, w') ↔ a = b ∧ w = w' := by
  change (Except.ok a, w) = (Except.ok b, w') ↔ _
  simp

@[simp] theorem fail_ok {f : Fault} {a : α} {w w' : World} :
    (fail f : M α) w = (.ok a, w') ↔ False := by simp [fail, Prog.lift]

@[simp] theorem lift_ok {x : R α} {a : α} {w w' : World} :
    lift x w = (.ok a, w') ↔ x = .ok a ∧ w = w' := by simp [lift, Prog.lift]

@[simp] theorem ask_ok {f : Nat → X α} {a : α} {w w' : World} :
    ask f w = (.ok a, w') ↔ f w.tick = .ok a ∧ { w with tick := w.tick + 1 } = w' := by simp [ask]

@[simp] theorem getBroker_ok {b : Broker} {w w' : World} :
    getBroker w = (.ok b, w') ↔ w.broker = b ∧ w = w' := by simp [getBroker, gets]

@[simp] theorem modify_ok {f : Broker → Broker} {u : Unit} {w w' : World} :
    modify f w = (.ok u, w') ↔ { w with broker := f w.broker } = w' := by simp [modify, Prog.modify]

@[simp] theorem haltIf_ok {c : Bool} {u : Unit} {w w' : World} : haltIf c w = (.ok u, w') ↔
    { w with broker := { w.broker with halted := w.broker.halted || c } } = w' := by
  cases c <;> simp [haltIf]

theorem restore_ok {m : MirrorState} {haltedVenues : List String} {w w' : World}
    (h : restore A m haltedVenues w = (.ok (), w')) : w.broker.queue = [] ∧ ∃ sent expected,
      m.openTickets.foldlM (restoreSent A) .empty = .ok sent ∧ m.expected A = .ok expected ∧
      w' = { w with broker := { w.broker with
        halted := w.broker.halted || decide (w.broker.venue ∈ haltedVenues)
        sent := sent
        restored := true
        keys := w.broker.keys ++ m.tickets.entries.map (·.1)
        cancelled := w.broker.cancelled ++
          (m.tickets.entries.filter fun e => e.2.bookStatus == some .cancelled).map (·.1)
        expected := expected } } := by
  simp only [restore, bind_ok, getBroker_ok, lift_ok, haltIf_ok, modify_ok, refuseIf_eq_ok,
    not_not] at h
  obtain ⟨_, _, ⟨rfl, rfl⟩, _, _, ⟨-, rfl⟩, _, _, ⟨hqueue, rfl⟩, _, _, rfl, sent, _, ⟨hsent, rfl⟩, _, _,
    rfl, expected, _, ⟨hexpected, rfl⟩, rfl⟩ := h
  exact ⟨hqueue, sent, expected, hsent, hexpected, rfl⟩

/-! ## Programs that only read -/

def World.held (w : World) : Broker × List Send := (w.broker, w.sends)

theorem still_lift {x : R α} : Still World.held (lift x) := fun _ => rfl

theorem still_fail {f : Fault} : Still World.held (fail f : M α) := fun _ => rfl

theorem still_pure {a : α} : Still World.held (pure a : M α) := fun _ => rfl

theorem still_ask {f : Nat → X α} : Still World.held (ask f) := fun _ => rfl

theorem still_getBroker : Still World.held getBroker := fun _ => rfl

theorem still_requireConnected {what : String} : Still World.held (requireConnected what) :=
  still_getBroker.bind fun _ => still_lift

theorem still_readPositions : Still World.held (readPositions H) :=
  still_ask.bind fun _ => still_ask.bind fun _ => still_lift

theorem still_readWorking : Still World.held (readWorking H) := still_ask.bind fun _ => still_lift

theorem still_readFills : Still World.held (readFills H) := still_ask.bind fun _ => still_lift

theorem still_readBoth : Still World.held (do
    let positions ← readPositions H
    let working ← readWorking H
    pure (positions, working) : M (List (Contract × Money) × List Row)) :=
  still_readPositions.bind fun _ => still_readWorking.bind fun _ => still_pure

theorem still_readBook : Still World.held (readBook A H) :=
  still_readPositions.bind fun _ => still_lift

theorem still_makeAck {id : String} {now : Stamp} {v : Verdict} : Still World.held (makeAck id now v) :=
  still_lift.bind fun _ => still_pure

theorem still_ack {t : Ticket} {status : AckStatus} {message : String} :
    Still World.held (ack H t status message) := still_ask.bind fun _ => still_makeAck

theorem still_startBook {taken : Option (Stamp × Book)} : Still World.held (startBook A H taken) := by
  cases taken with
  | none => exact still_readBook.attempt
  | some read =>
      refine still_ask.bind fun _ => still_lift.bind fun age => ?_
      split
      · exact still_pure
      · exact still_readBook.attempt

/-! ## The desk -/

structure Desk where
  queue : List Ticket
  keys : List String
  halted : Bool
  sends : List Send

def World.desk (w : World) : Desk := ⟨w.broker.queue, w.broker.keys, w.broker.halted, w.sends⟩

inductive Move : Desk → Desk → Prop
  | enqueue {d : Desk} (t : Ticket) (fresh : t.venueOrderId ∉ d.keys) :
      Move d { d with queue := d.queue ++ [t], keys := d.keys ++ [t.venueOrderId] }
  | remember {d : Desk} (keys : List String) : Move d { d with keys := d.keys ++ keys }
  | drop {d : Desk} (key : String) :
      Move d { d with queue := d.queue.eraseP (·.venueOrderId = key) }
  | halt {d : Desk} : Move d { d with halted := true }
  | drain {d : Desk} (sends : List Send)
      (taken : (sends.map (·.key)).Sublist (d.queue.map (·.venueOrderId)))
      (running : ∀ s ∈ sends, s.halted = false ∧ d.halted = false) :
      Move d { d with queue := [], sends := d.sends ++ sends }

/-- From every desk the program moves, whichever way it ends. -/
def Moves (p : M α) : Prop := ∀ w, ReflTransGen Move w.desk (p w).2.desk

namespace Moves

theorem still {p : M α} (h : Still World.held p) : Moves p := by
  intro w
  have hd : (p w).2.desk = w.desk := by
    have := h w
    simp only [World.held, Prod.mk.injEq] at this
    simp [World.desk, this.1, this.2]
  rw [hd]

theorem modify {f : Broker → Broker} (h : ∀ w : World, World.desk { w with broker := f w.broker } = w.desk) :
    Moves (Tos.modify f) := by
  intro w
  change ReflTransGen Move w.desk (World.desk { w with broker := f w.broker })
  rw [h]

theorem halt : Moves (Tos.modify fun b => { b with halted := true }) := fun _ => .single .halt

theorem bind {p : M α} {f : α → M β} (hp : Moves p) (hf : ∀ a, Moves (f a)) : Moves (p >>= f) := by
  intro w
  change ReflTransGen Move w.desk (Prog.bind p f w).2.desk
  have h := hp w
  unfold Prog.bind
  rcases hr : p w with ⟨e | a, w'⟩
  all_goals rw [hr] at h
  · exact h
  · exact h.trans (hf a w')

theorem ite {c : Prop} [Decidable c] {p q : M α} (hp : Moves p) (hq : Moves q) :
    Moves (if c then p else q) := by
  split
  · exact hp
  · exact hq

theorem forEach {f : β → M Unit} {l : List β} (h : ∀ b, Moves (f b)) : Moves (forEach f l) := by
  induction l with
  | nil => exact still still_pure
  | cons b l ih => exact (h b).bind fun _ => ih

end Moves

theorem unreadableHalt_moves {event : R VenueReconcile} : Moves (unreadableHalt event : M α) :=
  (Moves.still still_lift).bind fun _ => Moves.halt.bind fun _ => .still still_fail

theorem haltIf_moves {c : Bool} : Moves (haltIf c) := .ite .halt (.still still_pure)

theorem enqueue_moves {expected : Book} {t : Ticket} : Moves (enqueue A expected t) := by
  intro w
  change ReflTransGen Move w.desk ((if t.venueOrderId ∈ w.broker.keys then pure expected else _ :
    M Book) w).2.desk
  split
  · exact .refl
  · exact .single (.enqueue t ‹_›)

theorem enqueueAll_moves {tickets : List Ticket} {expected : Book} :
    Moves (enqueueAll A tickets expected) := by
  induction tickets generalizing expected with
  | nil => exact .still still_pure
  | cons t rest ih => exact enqueue_moves.bind fun _ => ih

theorem mirrorBatch_moves {orders : List NOrder} {holdings : OMap (String × Contract) Money} :
    Moves (mirrorBatch A sha256 H orders holdings) := by
  refine (Moves.still still_requireConnected).bind fun _ => (Moves.still still_getBroker).bind fun b => ?_
  refine .ite (.still still_pure) ?_
  refine (Moves.still still_ask).bind fun _ => (Moves.still still_lift).bind fun batch => ?_
  refine (Moves.still still_lift).bind fun _ => enqueueAll_moves.bind fun _ => ?_
  exact Moves.bind (.modify fun _ => rfl) fun _ => .still still_pure

theorem restore_moves {m : MirrorState} {haltedVenues : List String} :
    Moves (restore A m haltedVenues) := by
  refine (Moves.still still_getBroker).bind fun b => (Moves.still still_lift).bind fun _ => ?_
  refine (Moves.still still_lift).bind fun _ => ?_
  refine haltIf_moves.bind fun _ => (Moves.still still_lift).bind fun sent => ?_
  refine Moves.bind (fun w => .single (.remember _)) fun _ => (Moves.still still_lift).bind fun _ => ?_
  exact .modify fun _ => rfl

theorem unexpect_moves {t : Ticket} {units : Option Money} : Moves (unexpect A t units) := by
  refine (Moves.still still_lift).bind fun _ => .forEach fun e => ?_
  refine (Moves.still still_getBroker).bind fun _ => (Moves.still still_lift).bind fun _ => ?_
  exact .modify fun _ => rfl

theorem collectFills_moves {m : MirrorState} : Moves (collectFills A H m) := by
  refine (Moves.still still_requireConnected).bind fun _ => (Moves.still still_getBroker).bind fun b => ?_
  refine (Moves.still still_lift).bind fun _ => (Moves.still still_ask).bind fun _ => ?_
  refine (Moves.still still_lift).bind fun _ => (Moves.still still_ask).bind fun _ => ?_
  refine (Moves.still still_lift).bind fun _ => (Moves.still still_readFills.attempt).bind fun read => ?_
  cases read with
  | error f => exact .ite (.still still_fail) unreadableHalt_moves
  | ok rows =>
      dsimp only
      split
      · exact unreadableHalt_moves
      · refine (Moves.still still_lift).bind fun _ => ?_
        exact .ite unreadableHalt_moves (.still still_pure)

theorem preflight_moves : Moves (preflight A H) := by
  have hread : Still World.held (do
      let when_ ← ask H.now
      let book ← readBook A H
      pure (when_, book) : M (Stamp × Book)) :=
    still_ask.bind fun _ => still_readBook.bind fun _ => still_pure
  refine (Moves.still still_requireConnected).bind fun _ => ?_
  refine Moves.bind (.modify fun _ => rfl) fun _ => ?_
  refine (Moves.still hread.attempt).bind fun read => ?_
  cases read with
  | error f => exact .ite (.still still_fail) (.still still_pure)
  | ok read => exact .modify fun _ => rfl

theorem reconcileNow_moves {deferUnavailable : Bool} : Moves (reconcileNow A H deferUnavailable) := by
  refine (Moves.still still_ask).bind fun _ => (Moves.still still_getBroker).bind fun _ => ?_
  refine (Moves.still still_readBoth.attempt).bind fun read => ?_
  refine Moves.bind ?_ fun event => haltIf_moves.bind fun _ => .still still_pure
  rcases read with f | ⟨positions, working⟩
  · exact .ite (.still still_fail) (.still still_lift)
  · exact .still still_lift

theorem finish_moves {acks : List Ack} {contracts : List Contract} {failed : Option String} :
    Moves (finish A H acks contracts failed) := by
  refine (Moves.still still_ask).bind fun _ => (Moves.still still_getBroker).bind fun _ => ?_
  refine Moves.bind ?_ fun event => haltIf_moves.bind fun _ =>
    (Moves.still still_getBroker).bind fun _ => .still still_pure
  cases failed with
  | none => exact reconcileNow_moves
  | some why => exact .still still_lift

/-! ## Cancel -/

theorem cancelAtVenue_moves {key : String} {now : Stamp} {s : Sent} :
    Moves (cancelAtVenue A H key now s) := by
  refine (Moves.still still_ask).bind fun able => .ite (.still still_makeAck) ?_
  refine (Moves.still still_ask.attempt).bind fun answer => ?_
  rcases answer with (r | e | e | e) | raw
  · exact (Moves.still still_ask).bind fun _ => .still still_makeAck
  · exact .still still_fail
  · exact .still still_fail
  · exact .still still_fail
  · refine (Moves.still still_ask).bind fun _ => (Moves.still still_makeAck).bind fun a => ?_
    refine .ite ?_ (.still still_pure)
    refine Moves.bind ?_ fun _ => .still still_pure
    refine Moves.bind (.modify fun _ => rfl) fun _ => unexpect_moves.bind fun _ => ?_
    exact .modify fun _ => rfl

theorem cancel_moves {key : String} : Moves (cancel A H key) := by
  refine (Moves.still still_requireConnected).bind fun _ => (Moves.still still_ask).bind fun now => ?_
  refine (Moves.still still_getBroker).bind fun b => .ite (.still still_makeAck) ?_
  split
  · refine Moves.bind (fun w => .single (.drop key)) fun _ => unexpect_moves.bind fun _ => ?_
    exact Moves.bind (.modify fun _ => rfl) fun _ => .still still_makeAck
  · split
    · exact .still still_makeAck
    · exact cancelAtVenue_moves

theorem cancel_sends {key : String} : Still World.sends (cancel A H key) := by
  have quiet : ∀ {α : Type} {p : M α}, Still World.held p → Still World.sends p :=
    fun h w => congrArg Prod.snd (h w)
  have taken : ∀ {t : Ticket} {units : Option Money}, Still World.sends (unexpect A t units) := by
    intro t units
    refine (quiet still_lift).bind fun contracts => ?_
    induction contracts.entries with
    | nil => exact quiet still_pure
    | cons e rest ih =>
        refine Still.bind ?_ fun _ => ih
        exact (quiet still_getBroker).bind fun _ => (quiet still_lift).bind fun _ => fun _ => rfl
  refine (quiet still_requireConnected).bind fun _ => (quiet still_ask).bind fun now => ?_
  refine (quiet still_getBroker).bind fun b => ?_
  split
  · exact quiet still_makeAck
  · split
    · refine Still.bind (fun _ => rfl) fun _ => taken.bind fun _ => ?_
      exact Still.bind (fun _ => rfl) fun _ => quiet still_makeAck
    · split
      · exact quiet still_makeAck
      · refine (quiet still_ask).bind fun able => ?_
        split
        · exact quiet still_makeAck
        · refine (quiet still_ask.attempt).bind fun answer => ?_
          rcases answer with (r | e | e | e) | raw
          · exact (quiet still_ask).bind fun _ => quiet still_makeAck
          · exact quiet still_fail
          · exact quiet still_fail
          · exact quiet still_fail
          · refine (quiet still_ask).bind fun _ => (quiet still_makeAck).bind fun a => ?_
            split
            · refine Still.bind ?_ fun _ => quiet still_pure
              exact Still.bind (fun _ => rfl) fun _ => taken.bind fun _ => fun _ => rfl
            · exact quiet still_pure

/-! ## Drain -/

/-- The world after some of the tickets were sent, each at most once, none of them at a halted
venue. -/
def Sends (tickets : List Ticket) (w w' : World) : Prop :=
  ∃ sends : List Send, w'.desk = { w.desk with sends := w.desk.sends ++ sends } ∧
    (sends.map (·.key)).Sublist (tickets.map (·.venueOrderId)) ∧
    ∀ s ∈ sends, s.halted = false ∧ w.desk.halted = false

theorem Sends.none {tickets : List Ticket} {w w' : World} (h : w'.desk = w.desk) :
    Sends tickets w w' := ⟨[], by simp [h], by simp, by simp⟩

theorem Sends.trans {ts ts' : List Ticket} {w w' w'' : World} (h : Sends ts w w')
    (h' : Sends ts' w' w'') : Sends (ts ++ ts') w w'' := by
  obtain ⟨l, hd, hl, hs⟩ := h
  obtain ⟨l', hd', hl', hs'⟩ := h'
  rw [hd] at hd' hs'
  refine ⟨l ++ l', by simp [hd'], ?_, fun s hmem => ?_⟩
  · rw [List.map_append, List.map_append]
    exact hl.append hl'
  · rcases List.mem_append.mp hmem with hmem | hmem
    · exact hs s hmem
    · exact hs' s hmem

theorem Sends.mono {ts ts' : List Ticket} {w w' : World} (h : Sends ts w w')
    (hts : ts.Sublist ts') : Sends ts' w w' := by
  obtain ⟨l, hd, hl, hs⟩ := h
  exact ⟨l, hd, hl.trans (hts.map _), hs⟩

theorem Sends.halted {ts : List Ticket} {w w' : World} (h : Sends ts w w') :
    w'.broker.halted = w.broker.halted := by
  obtain ⟨l, hd, -, -⟩ := h
  exact congrArg Desk.halted hd

/-- From a venue that is halted or not the program sends some of the tickets, and what it returns is
in `Q`. -/
def Sending (halted : Bool) (tickets : List Ticket) (p : M α) (Q : α → Prop) : Prop :=
  ∀ w : World, w.broker.halted = halted →
    Post (fun a w' => Sends tickets w w' ∧ Q a) (fun _ w' => Sends tickets w w') (p w)

namespace Sending

variable {halted : Bool} {ts ts' : List Ticket} {Q Q' : α → Prop}

theorem still {p : M α} (h : Still World.held p) : Sending halted ts p fun _ => True := by
  intro w _
  have hdesk : ∀ w', World.held w' = World.held w → Sends ts w w' := by
    intro w' hw
    simp only [World.held, Prod.mk.injEq] at hw
    exact .none (by simp [World.desk, hw.1, hw.2])
  exact (h.spec w).weaken (fun _ w' hw => ⟨hdesk w' hw, trivial⟩) fun _ w' hw => hdesk w' hw

theorem pure {a : α} (h : Q a) : Sending halted ts (Pure.pure a : M α) Q :=
  fun _ _ => ⟨.none rfl, h⟩

theorem fail {f : Fault} : Sending halted ts (Prog.fail f : M α) Q := fun _ _ => .none rfl

theorem bind {p : M α} {f : α → M β} {R : β → Prop} (hp : Sending halted ts p Q)
    (hf : ∀ a, Q a → Sending halted ts' (f a) R) : Sending halted (ts ++ ts') (p >>= f) R := by
  intro w hw
  refine post_bind.mpr ((hp w hw).weaken (fun a w' h => ?_) fun _ w' h => ?_)
  · have hrest := hf a h.2 w' (h.1.halted.trans hw)
    exact hrest.weaken (fun _ _ hb => ⟨h.1.trans hb.1, hb.2⟩) fun _ _ he => h.1.trans he
  · exact h.mono (List.sublist_append_left ts ts')

theorem andThen {p : M α} {f : α → M β} {R : β → Prop} (hp : Sending halted [] p Q)
    (hf : ∀ a, Q a → Sending halted ts (f a) R) : Sending halted ts (p >>= f) R :=
  hp.bind hf

theorem before {p : M α} {f : α → M β} {R : β → Prop} (hp : Sending halted ts p Q)
    (hf : ∀ a, Q a → Sending halted [] (f a) R) : Sending halted ts (p >>= f) R := by
  simpa using hp.bind hf

theorem cons {t : Ticket} {p : M α} {f : α → M β} {R : β → Prop} (hp : Sending halted [t] p Q)
    (hf : ∀ a, Q a → Sending halted ts (f a) R) : Sending halted (t :: ts) (p >>= f) R :=
  hp.bind hf

theorem weaken {p : M α} (h : Sending halted ts p Q) (hts : ts.Sublist ts') (hQ : ∀ a, Q a → Q' a) :
    Sending halted ts' p Q' :=
  fun w hw => (h w hw).weaken (fun _ _ ha => ⟨ha.1.mono hts, hQ _ ha.2⟩) fun _ _ he => he.mono hts

theorem quiet {p : M α} (h : Sending halted [] p Q) : Sending halted ts p Q :=
  h.weaken (List.nil_sublist _) fun _ ha => ha

theorem ite {c : Prop} [Decidable c] {p q : M α} (hp : c → Sending halted ts p Q)
    (hq : ¬ c → Sending halted ts q Q) : Sending halted ts (if c then p else q) Q := by
  split
  · exact hp ‹_›
  · exact hq ‹_›

theorem modify {f : Broker → Broker}
    (h : ∀ w : World, World.desk { w with broker := f w.broker } = w.desk) :
    Sending halted ts (Tos.modify f) fun _ => True := fun w _ => ⟨.none (h w), trivial⟩

theorem forEach {f : β → M Unit} {l : List β} (h : ∀ b, Sending halted [] (f b) fun _ => True) :
    Sending halted [] (Prog.forEach f l) fun _ => True := by
  induction l with
  | nil => exact still still_pure
  | cons b l ih => exact (h b).bind fun _ _ => ih

end Sending

variable {halted : Bool}

theorem unexpect_sending {t : Ticket} {units : Option Money} :
    Sending halted [] (unexpect A t units) fun _ => True := by
  refine (Sending.still still_lift).andThen fun _ _ => .forEach fun e => ?_
  refine (Sending.still still_getBroker).andThen fun _ _ => (Sending.still still_lift).andThen fun _ _ => ?_
  exact .modify fun _ => rfl

theorem makeAck_sending {id : String} {now : Stamp} {v : Verdict} :
    Sending halted [] (makeAck id now v) fun a => a.id = id :=
  (Sending.still still_lift).andThen fun _ _ => .pure rfl

theorem ack_sending {t : Ticket} {status : AckStatus} {message : String} :
    Sending halted [] (ack H t status message) fun a => a.id = t.venueOrderId :=
  (Sending.still still_ask).andThen fun _ _ => makeAck_sending

theorem placeOrder_sending {t : Ticket} {spec : Spec} :
    Sending false [t] (placeOrder H spec t.venueOrderId) fun _ => True := by
  intro w hw
  refine ⟨⟨[⟨t.venueOrderId, w.broker.halted⟩], rfl, List.Sublist.refl _, ?_⟩, trivial⟩
  intro s hs
  rw [List.mem_singleton.mp hs]
  exact ⟨hw, hw⟩

theorem prove_sending {t : Ticket} {raw : PlaceRaw} :
    Sending halted [] (prove t raw) fun _ => True := by
  unfold prove
  split
  · exact .modify fun _ => rfl
  · exact .pure trivial

theorem send_sending {t : Ticket} :
    Sending false [t] (send H t) fun a => a.id = t.venueOrderId := by
  unfold send
  split
  · refine .ite (fun _ => ?_) fun _ => ?_
    · exact ack_sending.quiet
    · exact fun w _ => .none rfl
  · refine placeOrder_sending.before fun answer _ => ?_
    rcases answer with (r | e | e | e) | raw
    · exact (Sending.still still_ask).andThen fun _ _ => makeAck_sending
    · exact .fail
    · exact .fail
    · exact .fail
    · refine prove_sending.andThen fun _ _ => (Sending.still still_ask).andThen fun _ _ => ?_
      exact makeAck_sending

theorem unexpectIf_sending {c : Bool} {t : Ticket} {units : Option Money} :
    Sending halted [] (unexpectIf A c t units) fun _ => True :=
  .ite (fun _ => unexpect_sending) fun _ => .pure trivial

theorem readBack_sending {t : Ticket} {sent : Ack} {before : Book} {claimed : List Nat} :
    Sending halted [] (readBack A H t sent before claimed) fun r => r.1.id = t.venueOrderId := by
  refine (Sending.still still_readBoth.attempt).andThen fun read _ => ?_
  rcases read with f | ⟨positions, working⟩
  · exact .ite (fun _ => .fail) fun _ => ack_sending.andThen fun a ha => .pure ha
  · refine (Sending.still still_lift).andThen fun _ _ => unexpectIf_sending.andThen fun _ _ => ?_
    exact ack_sending.andThen fun a ha => (Sending.still still_lift).andThen fun _ _ => .pure ha

theorem drainTicket_sending {t : Ticket} {before : Book} {claimed : List Nat} :
    Sending halted [t] (drainTicket A H t before claimed) fun r => r.1.id = t.venueOrderId := by
  intro w hw
  -- the halt the ticket is checked against is the one it would be sent under
  change Post _ _ ((if w.broker.halted then _ else _ : M (Ack × Book × List Nat)) w)
  cases hh : w.broker.halted with
  | true =>
      refine Sending.quiet ?_ w rfl
      exact ack_sending.andThen fun a ha => unexpect_sending.andThen fun _ _ => .pure ha
  | false =>
      refine Sending.before send_sending (fun a ha => ?_) w hh
      refine .ite (fun _ => unexpect_sending.andThen fun _ _ => .pure ha) fun _ => readBack_sending

theorem drainTickets_sending {ts : List Ticket} {before : Book} {claimed : List Nat} {acks : List Ack} :
    Sending halted ts (drainTickets A H ts before claimed acks) fun r =>
      r.map (·.id) = acks.map (·.id) ++ ts.map (·.venueOrderId) := by
  induction ts generalizing before claimed acks with
  | nil => exact .pure (by simp)
  | cons t rest ih =>
      refine drainTicket_sending.cons fun r hr => ?_
      exact ih.weaken (List.Sublist.refl _) fun l hl => by simp [hl, hr]

theorem rejectAll_sending {why : String} {ts : List Ticket} {acks : List Ack} :
    Sending halted [] (rejectAll A H why ts acks) fun r =>
      r.map (·.id) = acks.map (·.id) ++ ts.map (·.venueOrderId) := by
  induction ts generalizing acks with
  | nil => exact .pure (by simp)
  | cons t rest ih =>
      refine ack_sending.andThen fun a ha => unexpect_sending.andThen fun _ _ => ?_
      exact ih.weaken (List.Sublist.refl _) fun l hl => by simp [hl, ha]

/-- The program sends some of the tickets, then moves. -/
def Drains (tickets : List Ticket) (p : M α) (Q : α → Prop) : Prop :=
  ∀ w : World, Post (fun a w' => (∃ m, Sends tickets w m ∧ ReflTransGen Move m.desk w'.desk) ∧ Q a)
    (fun _ w' => ∃ m, Sends tickets w m ∧ ReflTransGen Move m.desk w'.desk) (p w)

theorem Sending.drains {ts : List Ticket} {p : M α} {f : α → M β} {Q : α → Prop} {R : β → Prop}
    (hp : ∀ halted, Sending halted [] p Q) (hf : ∀ a, Q a → Drains ts (f a) R) :
    Drains ts (p >>= f) R := by
  intro w
  refine post_bind.mpr ((hp _ w rfl).weaken (fun a w' h => ?_) fun _ w' h => ?_)
  · refine (hf a h.2 w').weaken (fun b w'' hb => ?_) fun _ w'' he => ?_
    · obtain ⟨⟨m, hm, hpath⟩, hb⟩ := hb
      exact ⟨⟨m, h.1.trans hm, hpath⟩, hb⟩
    · obtain ⟨m, hm, hpath⟩ := he
      exact ⟨m, h.1.trans hm, hpath⟩
  · exact ⟨w', h.mono (List.nil_sublist _), .refl⟩

theorem finish_acks {acks : List Ack} {contracts : List Contract} {failed : Option String}
    {w w' : World} {r : DrainReport} (h : finish A H acks contracts failed w = (.ok r, w')) :
    r.acks = acks := by
  obtain ⟨_, _, -, h⟩ := bind_ok.mp h
  obtain ⟨_, _, -, h⟩ := bind_ok.mp h
  obtain ⟨_, _, -, h⟩ := bind_ok.mp h
  obtain ⟨_, _, -, h⟩ := bind_ok.mp h
  obtain ⟨_, _, -, h⟩ := bind_ok.mp h
  cases h
  rfl

theorem finish_drains {ts : List Ticket} {p : M (List Ack)} {contracts : List Contract}
    {failed : Option String} {Q : List Ack → Prop} (hp : ∀ halted, Sending halted ts p Q) :
    Drains ts (p >>= fun acks => finish A H acks contracts failed) fun r => Q r.acks := by
  intro w
  refine post_bind.mpr ((hp _ w rfl).weaken (fun acks m h => ?_) fun _ m h => ⟨m, h, .refl⟩)
  have hpath : ReflTransGen Move m.desk (finish A H acks contracts failed m).2.desk :=
    finish_moves m
  rcases hr : finish A H acks contracts failed m with ⟨e | r, w'⟩
  all_goals rw [hr] at hpath
  · exact ⟨m, h.1, hpath⟩
  · refine ⟨⟨m, h.1, hpath⟩, ?_⟩
    change Q r.acks
    rw [finish_acks hr]
    exact h.2

theorem drainQueue_drains {ts : List Ticket} {taken : Option (Stamp × Book)} :
    Drains ts (drainQueue A H ts taken) fun r => r.acks.map (·.id) = ts.map (·.venueOrderId) := by
  refine Sending.drains (fun _ => .still still_lift) fun books _ => ?_
  refine Sending.drains (fun _ => .still still_startBook) fun start _ => ?_
  cases start with
  | error f =>
      dsimp only
      split
      · exact fun w => ⟨w, .none rfl, .refl⟩
      · exact finish_drains fun _ => rejectAll_sending.quiet
  | ok before => exact finish_drains fun _ => drainTickets_sending

/-- Every way out of a drain is a path of moves, and a drain that returns acknowledges the queue. -/
theorem drain_spec (w : World) : Post
    (fun r w' => ReflTransGen Move w.desk w'.desk ∧
      r.acks.map (·.id) = w.broker.queue.map (·.venueOrderId))
    (fun _ w' => ReflTransGen Move w.desk w'.desk) (drain A H w) := by
  refine post_bind.mpr ?_
  change Post _ _ ((lift _ : M Unit) w)
  refine Post.lift (fun _ _ => ?_) fun _ _ => .refl
  change Post _ _ ((if w.broker.queue = [] then _ else _ : M DrainReport)
    { w with broker := { w.broker with preflightBook := none } })
  split
  · rename_i hq
    exact ⟨.refl, by simp [hq]⟩
  · -- the queue is empty now; what it held goes out, and the whole is one move
    have hpath : ∀ {w' : World}, (∃ m, Sends w.broker.queue
        { w with broker := { w.broker with preflightBook := none, queue := [], proven := .empty } } m ∧
        ReflTransGen Move m.desk w'.desk) → ReflTransGen Move w.desk w'.desk := by
      rintro w' ⟨m, ⟨sends, hm, hsub, hrun⟩, hpath⟩
      refine .head (Move.drain sends hsub hrun) ?_
      rw [hm] at hpath
      exact hpath
    exact (drainQueue_drains _).weaken (fun r w' h => ⟨hpath h.1, h.2⟩) fun _ w' h => hpath h

/-! ## Runs -/

theorem drain_moves : Moves (drain A H) := fun w =>
  Post.reached ((drain_spec w).weaken (fun _ _ h => h.1) fun _ _ h => h)

theorem exec_moves (c : Call) : Moves (c.exec A sha256 H) := by
  cases c with
  | markConnected => exact .modify fun _ => rfl
  | mirrorBatch => exact mirrorBatch_moves.bind fun _ => .still still_pure
  | drain => exact drain_moves.bind fun _ => .still still_pure
  | cancel => exact cancel_moves.bind fun _ => .still still_pure
  | restore => exact restore_moves
  | collectFills => exact collectFills_moves.bind fun _ => .still still_pure
  | preflight => exact preflight_moves
  | reconcileNow => exact reconcileNow_moves.bind fun _ => .still still_pure

theorem run_moves (A : Arith) (sha256 : String → String) (H : Host) (calls : List Call) (w : World) :
    ReflTransGen Move w.desk (run A sha256 H calls w).desk := by
  induction calls generalizing w with
  | nil => exact .refl
  | cons c rest ih => exact (exec_moves c w).trans (ih _)

/-! ## What every move keeps -/

/-- Every key is queued once and sent once, and never both. -/
structure Desk.Ok (d : Desk) : Prop where
  queued : (d.queue.map (·.venueOrderId)).Nodup
  known : ∀ key ∈ d.queue.map (·.venueOrderId), key ∈ d.keys
  sent : ∀ s ∈ d.sends, s.key ∈ d.keys
  once : (d.sends.map (·.key)).Nodup
  unsent : ∀ s ∈ d.sends, s.key ∉ d.queue.map (·.venueOrderId)
  running : ∀ s ∈ d.sends, s.halted = false

def Desk.Shut (key : String) (d : Desk) : Prop :=
  key ∈ d.keys ∧ key ∉ d.queue.map (·.venueOrderId)

theorem ok_move : Stable Move Desk.Ok := by
  intro d d' h hok
  cases h with
  | enqueue t fresh =>
      constructor
      case queued =>
        rw [List.map_append, List.map_singleton]
        refine hok.queued.append (List.nodup_singleton _) ?_
        rw [List.disjoint_singleton]
        exact fun hmem => fresh (hok.known _ hmem)
      case known =>
        intro key hkey
        rw [List.map_append, List.mem_append] at hkey
        rcases hkey with hkey | hkey
        · exact List.mem_append_left _ (hok.known key hkey)
        · exact List.mem_append_right _ hkey
      case sent => exact fun s hs => List.mem_append_left _ (hok.sent s hs)
      case once => exact hok.once
      case unsent =>
        intro s hs hkey
        rw [List.map_append, List.mem_append] at hkey
        rcases hkey with hkey | hkey
        · exact hok.unsent s hs hkey
        · rw [List.map_singleton, List.mem_singleton] at hkey
          exact fresh (hkey ▸ hok.sent s hs)
      case running => exact hok.running
  | remember keys =>
      exact { hok with
        known := fun key hkey => List.mem_append_left _ (hok.known key hkey)
        sent := fun s hs => List.mem_append_left _ (hok.sent s hs) }
  | drop key =>
      have hsub := (List.eraseP_sublist (l := d.queue) (p := (·.venueOrderId = key))).map (·.venueOrderId)
      exact { hok with
        queued := hok.queued.sublist hsub
        known := fun k hk => hok.known k (hsub.subset hk)
        unsent := fun s hs hk => hok.unsent s hs (hsub.subset hk) }
  | halt => exact { hok with }
  | drain sends taken running =>
      constructor
      case queued => exact List.nodup_nil
      case known => simp
      case sent =>
        intro s hs
        rcases List.mem_append.mp hs with hs | hs
        · exact hok.sent s hs
        · exact hok.known _ (taken.subset (List.mem_map_of_mem hs))
      case once =>
        rw [List.map_append]
        refine hok.once.append (hok.queued.sublist taken) ?_
        rintro key hsent hnew
        obtain ⟨s, hs, rfl⟩ := List.mem_map.mp hsent
        exact hok.unsent s hs (taken.subset hnew)
      case unsent => simp
      case running =>
        intro s hs
        rcases List.mem_append.mp hs with hs | hs
        · exact hok.running s hs
        · exact (running s hs).1

theorem shut_move {key : String} : Stable Move (Desk.Shut key) := by
  intro d d' h hshut
  obtain ⟨hkey, hqueue⟩ := hshut
  cases h with
  | enqueue t fresh =>
      refine ⟨List.mem_append_left _ hkey, ?_⟩
      rw [List.map_append, List.mem_append, List.map_singleton, List.mem_singleton]
      rintro (h | rfl)
      · exact hqueue h
      · exact fresh hkey
  | remember keys => exact ⟨List.mem_append_left _ hkey, hqueue⟩
  | drop k => exact ⟨hkey, fun h => hqueue ((List.eraseP_sublist.map _).subset h)⟩
  | halt => exact ⟨hkey, hqueue⟩
  | drain => exact ⟨hkey, by simp⟩

theorem known_move {key : String} : Stable Move fun d => key ∈ d.keys := by
  intro d d' h hk
  cases h with
  | enqueue => exact List.mem_append_left _ hk
  | remember => exact List.mem_append_left _ hk
  | _ => exact hk

theorem halted_move : Stable Move fun d => d.halted = true := by
  intro d d' h hh
  cases h with
  | halt => rfl
  | _ => exact hh

/-- What a path adds to the sends: nothing for a key that is shut, and nothing at a halted venue. -/
theorem sends_path {d d' : Desk} (h : ReflTransGen Move d d') :
    ∃ later, d'.sends = d.sends ++ later ∧ (∀ key, d.Shut key → ∀ s ∈ later, s.key ≠ key) ∧
      (d.halted = true → later = []) := by
  induction h with
  | refl => exact ⟨[], by simp, by simp, fun _ => rfl⟩
  | @tail m e hpath hmove ih =>
      obtain ⟨later, hsends, hshut, hhalt⟩ := ih
      cases hmove with
      | drain sends taken running =>
          refine ⟨later ++ sends, by simp [hsends], fun key hkey s hs => ?_, fun hh => ?_⟩
          · rcases List.mem_append.mp hs with hs | hs
            · exact hshut key hkey s hs
            · rintro rfl
              have hm := shut_move.path hpath hkey
              exact hm.2 (taken.subset (List.mem_map_of_mem hs))
          · have hm := halted_move.path hpath hh
            have hnone : sends = [] := by
              refine List.eq_nil_iff_forall_not_mem.mpr fun s hs => ?_
              rw [(running s hs).2] at hm
              exact Bool.noConfusion hm
            rw [hhalt hh, hnone, List.append_nil]
      | _ => exact ⟨later, hsends, hshut, hhalt⟩

theorem restore_shut {m : MirrorState} {haltedVenues : List String} {w w' : World}
    (h : restore A m haltedVenues w = (.ok (), w')) {key : String}
    (hkey : key ∈ m.tickets.entries.map (·.1)) : w'.desk.Shut key := by
  obtain ⟨hqueue, sent, expected, -, -, rfl⟩ := restore_ok h
  refine ⟨List.mem_append_right _ hkey, ?_⟩
  simp [World.desk, hqueue]

end TradeEngine.Tos
