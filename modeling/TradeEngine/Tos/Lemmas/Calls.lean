import TradeEngine.Tos.Lemmas.Sends

/-!
# The calls that place no order

Only a drain sends, and only what its queue held. Every other call leaves the sends alone, and a read
leaves the queue and the keys alone too.
-/

namespace TradeEngine.Tos

open Lib Prog Relation

variable {A : Arith} {sha256 : String → String} {H : Host} {α β : Type}

/-! ## Reads -/

def World.fixed (w : World) : String × List Send := (w.broker.venue, w.sends)

def World.line (w : World) : (String × List Send) × List Ticket × List String :=
  (w.fixed, w.broker.queue, w.broker.keys)

theorem still_line {p : M α} (h : Still World.held p) : Still World.line p :=
  fun w => congrArg (fun h => ((h.1.venue, h.2), h.1.queue, h.1.keys)) (h w)

theorem line_fixed {p : M α} (h : Still World.line p) : Still World.fixed p :=
  fun w => congrArg Prod.fst (h w)

theorem still_fixed {p : M α} (h : Still World.held p) : Still World.fixed p := line_fixed (still_line h)

theorem haltIf_line {c : Bool} : Still World.line (haltIf c) := by
  cases c
  · exact still_line still_pure
  · exact fun _ => rfl

theorem unreadableHalt_line {event : R VenueReconcile} : Still World.line (unreadableHalt event : M α) :=
  (still_line still_lift).bind fun _ => Still.bind (fun _ => rfl) fun _ => still_line still_fail

theorem collectFills_line {m : MirrorState} : Still World.line (collectFills A H m) := by
  refine (still_line still_requireConnected).bind fun _ => (still_line still_getBroker).bind fun b => ?_
  refine (still_line still_lift).bind fun _ => (still_line still_ask).bind fun _ => ?_
  refine (still_line still_lift).bind fun _ => (still_line still_ask).bind fun _ => ?_
  refine (still_line still_lift).bind fun _ => (still_line still_readFills.attempt).bind fun read => ?_
  cases read with
  | error f =>
      dsimp only
      split
      · exact still_line still_fail
      · exact unreadableHalt_line
  | ok rows =>
      dsimp only
      split
      · exact unreadableHalt_line
      · refine (still_line still_lift).bind fun _ => ?_
        split
        · exact unreadableHalt_line
        · exact still_line still_pure

theorem preflight_line : Still World.line (preflight A H) := by
  have hread : Still World.held (do
      let when_ ← ask H.now
      let book ← readBook A H
      pure (when_, book) : M (Stamp × Book)) :=
    still_ask.bind fun _ => still_readBook.bind fun _ => still_pure
  refine (still_line still_requireConnected).bind fun _ => ?_
  refine Still.bind (fun _ => rfl) fun _ => (still_line hread.attempt).bind fun read => ?_
  cases read with
  | error f =>
      dsimp only
      split
      · exact still_line still_fail
      · exact still_line still_pure
  | ok read => exact fun _ => rfl

theorem reconcileNow_line {deferUnavailable : Bool} : Still World.line (reconcileNow A H deferUnavailable) := by
  refine (still_line still_ask).bind fun _ => (still_line still_getBroker).bind fun _ => ?_
  refine (still_line still_readBoth.attempt).bind fun read => ?_
  refine Still.bind ?_ fun event => haltIf_line.bind fun _ => still_line still_pure
  rcases read with f | ⟨positions, working⟩
  · dsimp only
    split
    · exact still_line still_fail
    · exact still_line still_lift
  · exact still_line still_lift

theorem reconcileNow_halts {deferUnavailable : Bool} (w : World) :
    Post (fun event w' => event.reconciled = false → w'.broker.halted = true) (fun _ _ => True)
      (reconcileNow A H deferUnavailable w) := by
  have htriv : ∀ {γ : Type} {p : M γ}, Triple (fun _ : World => True) p (fun _ _ => True) fun _ _ => True := by
    intro γ p w _
    rcases p w with ⟨f | a, w'⟩ <;> trivial
  have hspec : Triple (fun _ : World => True) (reconcileNow A H deferUnavailable)
      (fun event w' => event.reconciled = false → w'.broker.halted = true) fun _ _ => True := by
    refine htriv.bind fun _ => htriv.bind fun _ => htriv.bind fun read => htriv.bind fun event => ?_
    intro w _
    refine post_bind.mpr ?_
    change Post _ _ ((if (!event.reconciled) = true then _ else _ : M Unit) w)
    split
    · exact fun _ => rfl
    · rename_i hclean
      intro hdrift
      simp [hdrift] at hclean
  exact hspec w trivial

/-! ## An unreadable venue -/

/-- The program calls the venue unreadable only after it halted the broker. -/
def Honest (p : M α) : Prop := ∀ w, Post (fun _ _ => True)
  (fun f w' => ∀ event, f = .unreadable event → w'.broker.halted = true) (p w)

namespace Honest

theorem bind {p : M α} {f : α → M β} (hp : Honest p) (hf : ∀ a, Honest (f a)) : Honest (p >>= f) :=
  fun w => post_bind.mpr ((hp w).weaken (fun a w' _ => hf a w') fun _ _ h => h)

theorem lift {x : R α} : Honest (Tos.lift x) := by
  intro w
  refine Post.lift (fun _ _ => trivial) fun f hf event hevent => ?_
  subst hevent
  cases x with
  | error e =>
      simp only [Except.mapError, Except.error.injEq, Fault.ofErr] at hf
      split at hf <;> cases hf
  | ok a => cases hf

theorem ask {f : Nat → X α} (h : ∀ n event, f n ≠ .error (.unreadable event)) : Honest (Tos.ask f) := by
  intro w
  have hn := h w.tick
  change Post _ _ (f w.tick, { w with tick := w.tick + 1 })
  revert hn
  rcases f w.tick with e | a
  · exact fun hn event hevent => absurd (congrArg Except.error hevent) (hn event)
  · exact fun _ => trivial

theorem getBroker : Honest getBroker := fun _ => trivial

theorem pure {a : α} : Honest (Pure.pure a : M α) := fun _ => trivial

theorem attempt {p : M α} : Honest (Prog.attempt p) := by
  intro w
  refine post_attempt.mpr ?_
  rcases p w with ⟨e | a, w'⟩ <;> trivial

theorem unreadableHalt {event : R VenueReconcile} : Honest (unreadableHalt event : M α) := by
  refine bind lift fun e w => ?_
  exact fun _ _ => rfl

end Honest

theorem collectFills_honest {m : MirrorState} (hnow : ∀ n event, H.now n ≠ .error (.unreadable event))
    (hable : ∀ n event, H.canReadFills n ≠ .error (.unreadable event)) : Honest (collectFills A H m) := by
  refine (Honest.getBroker.bind fun _ => Honest.lift).bind fun _ => Honest.getBroker.bind fun b => ?_
  refine Honest.lift.bind fun _ => (Honest.ask hable).bind fun _ => Honest.lift.bind fun _ => ?_
  refine (Honest.ask hnow).bind fun _ => Honest.lift.bind fun _ => Honest.attempt.bind fun read => ?_
  cases read with
  | error f =>
      dsimp only
      split
      · -- what passes through is the transport's word, not the broker's
        rename_i hf
        intro w event hevent
        subst hevent
        cases hf
      · exact .unreadableHalt
  | ok rows =>
      dsimp only
      split
      · exact .unreadableHalt
      · refine Honest.lift.bind fun _ => ?_
        split
        · exact .unreadableHalt
        · exact .pure

/-! ## What places no order -/

theorem restore_fixed {m : MirrorState} {haltedVenues : List String} :
    Still World.fixed (restore A m haltedVenues) := by
  refine (still_fixed still_getBroker).bind fun b => (still_fixed still_lift).bind fun _ => ?_
  refine (still_fixed still_lift).bind fun _ => (line_fixed haltIf_line).bind fun _ => ?_
  refine (still_fixed still_lift).bind fun sent => Still.bind (fun _ => rfl) fun _ => ?_
  exact (still_fixed still_lift).bind fun _ => fun _ => rfl

theorem enqueueAll_fixed {tickets : List Ticket} {expected : Book} :
    Still World.fixed (enqueueAll A tickets expected) := by
  induction tickets generalizing expected with
  | nil => exact still_fixed still_pure
  | cons t rest ih =>
      refine Still.bind ?_ fun _ => ih
      refine (still_fixed still_getBroker).bind fun b => ?_
      split
      · exact still_fixed still_pure
      · exact Still.bind (fun _ => rfl) fun _ => still_fixed still_lift

theorem mirrorBatch_fixed {orders : List NOrder} {holdings : OMap (String × Contract) Money} :
    Still World.fixed (mirrorBatch A sha256 H orders holdings) := by
  refine (still_fixed still_requireConnected).bind fun _ => (still_fixed still_getBroker).bind fun b => ?_
  split
  · exact still_fixed still_pure
  · refine (still_fixed still_ask).bind fun _ => (still_fixed still_lift).bind fun batch => ?_
    refine (still_fixed still_lift).bind fun _ => enqueueAll_fixed.bind fun _ => ?_
    exact Still.bind (fun _ => rfl) fun _ => still_fixed still_pure

theorem unexpect_fixed {t : Ticket} {units : Option Money} : Still World.fixed (unexpect A t units) := by
  refine (still_fixed still_lift).bind fun contracts => ?_
  induction contracts.entries with
  | nil => exact still_fixed still_pure
  | cons e rest ih =>
      refine Still.bind ?_ fun _ => ih
      exact (still_fixed still_getBroker).bind fun _ => (still_fixed still_lift).bind fun _ => fun _ => rfl

theorem cancelAtVenue_fixed {key : String} {now : Stamp} {s : Sent} :
    Still World.fixed (cancelAtVenue A H key now s) := by
  refine (still_fixed still_ask).bind fun able => ?_
  split
  · exact still_fixed still_makeAck
  · refine (still_fixed still_ask.attempt).bind fun answer => ?_
    rcases answer with (r | e | e | e) | raw
    · exact (still_fixed still_ask).bind fun _ => still_fixed still_makeAck
    · exact still_fixed still_fail
    · exact still_fixed still_fail
    · exact still_fixed still_fail
    · refine (still_fixed still_ask).bind fun _ => (still_fixed still_makeAck).bind fun a => ?_
      split
      · refine Still.bind ?_ fun _ => still_fixed still_pure
        exact Still.bind (fun _ => rfl) fun _ => unexpect_fixed.bind fun _ => fun _ => rfl
      · exact still_fixed still_pure

theorem cancel_fixed {key : String} : Still World.fixed (cancel A H key) := by
  refine (still_fixed still_requireConnected).bind fun _ => (still_fixed still_ask).bind fun now => ?_
  refine (still_fixed still_getBroker).bind fun b => ?_
  split
  · exact still_fixed still_makeAck
  · split
    · refine Still.bind (fun _ => rfl) fun _ => unexpect_fixed.bind fun _ => ?_
      exact Still.bind (fun _ => rfl) fun _ => still_fixed still_makeAck
    · split
      · exact still_fixed still_makeAck
      · exact cancelAtVenue_fixed

theorem finish_fixed {acks : List Ack} {contracts : List Contract} {failed : Option String} :
    Still World.fixed (finish A H acks contracts failed) := by
  refine (still_fixed still_ask).bind fun _ => (still_fixed still_getBroker).bind fun _ => ?_
  refine Still.bind ?_ fun event => (line_fixed haltIf_line).bind fun _ =>
    (still_fixed still_getBroker).bind fun _ => still_fixed still_pure
  cases failed with
  | none => exact line_fixed reconcileNow_line
  | some why => exact still_fixed still_lift

/-! ## The queue -/

/-- Every queued key is queued once, and is among the keys. -/
def Desk.Lined (d : Desk) : Prop :=
  (d.queue.map (·.venueOrderId)).Nodup ∧ ∀ key ∈ d.queue.map (·.venueOrderId), key ∈ d.keys

theorem lined_move : Stable Move Desk.Lined := by
  intro d d' h hd
  cases h with
  | enqueue t fresh =>
      rw [Desk.Lined, List.map_append, List.map_singleton]
      refine ⟨hd.1.append (List.nodup_singleton _) ?_, fun key hkey => ?_⟩
      · rw [List.disjoint_singleton]
        exact fun hmem => fresh (hd.2 _ hmem)
      · rcases List.mem_append.mp hkey with hkey | hkey
        · exact List.mem_append_left _ (hd.2 key hkey)
        · exact List.mem_append_right _ hkey
  | remember keys => exact ⟨hd.1, fun key hkey => List.mem_append_left _ (hd.2 key hkey)⟩
  | drop key =>
      have hsub := (List.eraseP_sublist (l := d.queue) (p := (·.venueOrderId = key))).map (·.venueOrderId)
      exact ⟨hd.1.sublist hsub, fun k hk => hd.2 k (hsub.subset hk)⟩
  | halt => exact hd
  | drain => exact ⟨List.nodup_nil, by simp⟩

def First (batch : List Ticket) (t : Ticket) : Prop :=
  ∃ before after, batch = before ++ t :: after ∧ ∀ u ∈ before, u.venueOrderId ≠ t.venueOrderId

/-- What a queue that was empty holds after some of a batch: tickets new to the keys, each the first
under its own. -/
structure Filled (keys : List String) (batch : List Ticket) (b : Broker) : Prop where
  fresh : ∀ t ∈ b.queue, t.venueOrderId ∉ keys ∧ First batch t
  used : ∀ t ∈ batch, t.venueOrderId ∈ b.keys
  known : ∀ key ∈ keys, key ∈ b.keys

theorem Filled.enqueue {keys : List String} {batch : List Ticket} {w : World} (h : Filled keys batch w.broker)
    (t : Ticket) (expected : Book) : Filled keys (batch ++ [t]) (enqueue A expected t w).2.broker := by
  have hfirst : ∀ {u : Ticket}, First batch u → First (batch ++ [t]) u := by
    rintro u ⟨before, after, hbatch, hu⟩
    exact ⟨before, after ++ [t], by simp [hbatch], hu⟩
  change Filled keys (batch ++ [t]) ((if t.venueOrderId ∈ w.broker.keys then pure expected else _ :
    M Book) w).2.broker
  split
  · rename_i hmem
    refine ⟨fun u hu => ⟨(h.fresh u hu).1, hfirst (h.fresh u hu).2⟩, fun u hu => ?_, h.known⟩
    rcases List.mem_append.mp hu with hu | hu
    · exact h.used u hu
    · rw [List.mem_singleton.mp hu]
      exact hmem
  · rename_i hmem
    refine ⟨fun u hu => ?_, fun u hu => ?_, fun key hkey => List.mem_append_left _ (h.known key hkey)⟩
    · rcases List.mem_append.mp hu with hu | hu
      · exact ⟨(h.fresh u hu).1, hfirst (h.fresh u hu).2⟩
      · rw [List.mem_singleton.mp hu]
        refine ⟨fun hkey => hmem (h.known _ hkey), batch, [], rfl, fun v hv heq => ?_⟩
        exact hmem (heq ▸ h.used v hv)
    · rcases List.mem_append.mp hu with hu | hu
      · exact List.mem_append_left _ (h.used u hu)
      · rw [List.mem_singleton.mp hu]
        exact List.mem_append_right _ (List.mem_singleton_self _)

theorem enqueueAll_filled {keys : List String} {tickets done : List Ticket} (expected : Book) {w : World}
    (h : Filled keys done w.broker) : Post (fun _ w' => Filled keys (done ++ tickets) w'.broker)
      (fun _ _ => True) (enqueueAll A tickets expected w) := by
  induction tickets generalizing done expected w with
  | nil =>
      rw [List.append_nil]
      exact h
  | cons t rest ih =>
      refine post_bind.mpr ?_
      have hone := h.enqueue (A := A) t expected
      revert hone
      rcases enqueue A expected t w with ⟨f | book, w'⟩
      · exact fun _ => trivial
      · intro hone
        rw [List.append_cons]
        exact ih _ hone

theorem mirrorBatch_filled {orders : List NOrder} {holdings : OMap (String × Contract) Money} {w : World}
    (hqueue : w.broker.queue = []) :
    Post (fun batch w' => ∀ t ∈ w'.broker.queue, t.venueOrderId ∉ w.broker.keys ∧ First batch.venueOrders t)
      (fun _ _ => True) (mirrorBatch A sha256 H orders holdings w) := by
  have hstart : Filled w.broker.keys [] w.broker := ⟨by simp [hqueue], by simp, fun _ hkey => hkey⟩
  refine post_bind.mpr ?_
  change Post _ _ ((lift _ : M Unit) w)
  refine Post.lift (fun _ _ => ?_) fun _ _ => trivial
  change Post _ _ ((if w.broker.halted = true then _ else _ : M Batch) w)
  split
  · intro t ht
    rw [hqueue] at ht
    cases ht
  · refine post_bind.mpr ?_
    change Post _ _ (H.now w.tick, { w with tick := w.tick + 1 })
    rcases H.now w.tick with f | now
    · trivial
    · refine post_bind.mpr (Post.lift (fun batch _ => ?_) fun _ _ => trivial)
      refine post_bind.mpr (Post.lift (fun base _ => ?_) fun _ _ => trivial)
      refine post_bind.mpr ?_
      have hstart' : Filled w.broker.keys [] (World.broker { w with tick := w.tick + 1 }) := hstart
      exact (enqueueAll_filled base hstart').weaken (fun _ w' h => h.fresh) fun _ _ _ => trivial

/-! ## Drain -/

/-- The orders a program placed: some of the tickets, each at most once, and none at a halted venue. -/
def Placed (tickets : List Ticket) (w w' : World) : Prop :=
  ∃ sends : List Send, w'.sends = w.sends ++ sends ∧
    (sends.map (·.key)).Sublist (tickets.map (·.venueOrderId)) ∧ (w.broker.halted = true → sends = [])

theorem Sends.placed {tickets : List Ticket} {w w' : World} (h : Sends tickets w w') : Placed tickets w w' := by
  obtain ⟨sends, hdesk, hsub, hrun⟩ := h
  refine ⟨sends, congrArg Desk.sends hdesk, hsub, fun hhalt => ?_⟩
  refine List.eq_nil_iff_forall_not_mem.mpr fun s hs => ?_
  have hrunning : w.broker.halted = false := (hrun s hs).2
  rw [hhalt] at hrunning
  cases hrunning

theorem Placed.after {tickets : List Ticket} {w m w' : World} (h : Placed tickets w m)
    (hsends : w'.sends = m.sends) : Placed tickets w w' := by
  obtain ⟨sends, hm, hrest⟩ := h
  exact ⟨sends, hsends.trans hm, hrest⟩

/-- Every way out of the program placed some of the tickets. -/
def Places (tickets : List Ticket) (p : M α) : Prop := ∀ w, Placed tickets w (p w).2

namespace Places

variable {ts : List Ticket}

theorem of_sending {p : M α} {Q : α → Prop} (h : ∀ halted, Sending halted ts p Q) : Places ts p :=
  fun w => Post.reached ((h _ w rfl).weaken (fun _ _ ha => ha.1.placed) fun _ _ he => he.placed)

theorem still {p : M α} (h : Still World.held p) : Places ts p :=
  of_sending fun _ => .still h

theorem andThen {p : M α} {f : α → M β} (hp : Still World.held p) (hf : ∀ a, Places ts (f a)) :
    Places ts (p >>= f) := by
  intro w
  change Placed ts w (Prog.bind p f w).2
  have h := hp w
  unfold Prog.bind
  rcases hr : p w with ⟨e | a, w'⟩
  all_goals
    rw [hr] at h
    simp only [World.held, Prod.mk.injEq] at h
  · exact ⟨[], by simp [h.2], by simp, fun _ => rfl⟩
  · obtain ⟨sends, hsends, hrest⟩ := hf a w'
    refine ⟨sends, by rw [← h.2]; exact hsends, hrest.1, fun hhalt => hrest.2 ?_⟩
    rw [h.1]
    exact hhalt

theorem before {p : M α} {f : α → M β} (hp : Places ts p) (hf : ∀ a, Still World.fixed (f a)) :
    Places ts (p >>= f) := by
  intro w
  change Placed ts w (Prog.bind p f w).2
  have h := hp w
  unfold Prog.bind
  rcases hr : p w with ⟨e | a, w'⟩
  all_goals rw [hr] at h
  · exact h
  · exact h.after (congrArg Prod.snd (hf a w'))

end Places

theorem Places.spec {ts : List Ticket} {p : M α} (h : Places ts p) (w : World) :
    Post (fun _ => Placed ts w) (fun _ => Placed ts w) (p w) := by
  have hw := h w
  revert hw
  rcases p w with ⟨e | a, w'⟩ <;> exact id

theorem drainQueue_places {ts : List Ticket} {taken : Option (Stamp × Book)} :
    Places ts (drainQueue A H ts taken) := by
  refine Places.andThen still_lift fun books => Places.andThen still_startBook fun start => ?_
  cases start with
  | error f =>
      dsimp only
      split
      · exact .still still_fail
      · exact Places.before (.of_sending fun _ => rejectAll_sending.quiet) fun _ => finish_fixed
  | ok before => exact Places.before (.of_sending fun _ => drainTickets_sending) fun _ => finish_fixed

theorem drain_placed (w : World) : Placed w.broker.queue w (drain A H w).2 := by
  have hnone : ∀ w' : World, w'.sends = w.sends → Placed w.broker.queue w w' :=
    fun w' h => ⟨[], by simp [h], by simp, fun _ => rfl⟩
  refine Post.reached (post_bind.mpr ?_)
  change Post _ _ ((lift _ : M Unit) w)
  refine Post.lift (fun _ _ => ?_) fun _ _ => hnone _ rfl
  change Post _ _ ((if w.broker.queue = [] then _ else _ : M DrainReport)
    { w with broker := { w.broker with preflightBook := none } })
  split
  · exact hnone _ rfl
  · exact drainQueue_places.spec _

/-! ## The venue of a drain -/

def World.venue (w : World) : String := w.broker.venue

theorem still_venue {p : M α} (h : Still World.fixed p) : Still World.venue p := fun w => congrArg Prod.fst (h w)

theorem ack_venue {t : Ticket} {status : AckStatus} {message : String} :
    Still World.venue (ack H t status message) := still_venue (still_fixed still_ack)

theorem unexpect_venue {t : Ticket} {units : Option Money} : Still World.venue (unexpect A t units) :=
  still_venue unexpect_fixed

theorem prove_venue {t : Ticket} {raw : PlaceRaw} : Still World.venue (prove t raw) := by
  unfold prove
  split
  · exact fun _ => rfl
  · exact still_venue (still_fixed still_pure)

theorem send_venue {t : Ticket} : Still World.venue (send H t) := by
  have quiet : ∀ {α : Type} {p : M α}, Still World.held p → Still World.venue p :=
    fun h => still_venue (still_fixed h)
  unfold send
  split
  · split
    · exact ack_venue
    · exact quiet still_lift
  · refine Still.bind (Still.bind (fun _ => rfl) fun _ => (quiet still_ask).attempt) fun answer => ?_
    rcases answer with (r | e | e | e) | raw
    · exact (quiet still_ask).bind fun _ => quiet still_makeAck
    · exact quiet still_fail
    · exact quiet still_fail
    · exact quiet still_fail
    · exact prove_venue.bind fun _ => (quiet still_ask).bind fun _ => quiet still_makeAck

theorem readBack_venue {t : Ticket} {sent : Ack} {before : Book} {claimed : List Nat} :
    Still World.venue (readBack A H t sent before claimed) := by
  have quiet : ∀ {α : Type} {p : M α}, Still World.held p → Still World.venue p :=
    fun h => still_venue (still_fixed h)
  refine (quiet still_readBoth.attempt).bind fun read => ?_
  rcases read with f | ⟨positions, working⟩
  · dsimp only
    split
    · exact quiet still_fail
    · exact ack_venue.bind fun _ => quiet still_pure
  · refine (quiet still_lift).bind fun verdict => Still.bind ?_ fun _ => ack_venue.bind fun _ => ?_
    · unfold unexpectIf
      split
      · exact unexpect_venue
      · exact quiet still_pure
    · exact (quiet still_lift).bind fun _ => quiet still_pure

theorem drainTickets_venue {ts : List Ticket} {before : Book} {claimed : List Nat} {acks : List Ack} :
    Still World.venue (drainTickets A H ts before claimed acks) := by
  have quiet : ∀ {α : Type} {p : M α}, Still World.held p → Still World.venue p :=
    fun h => still_venue (still_fixed h)
  induction ts generalizing before claimed acks with
  | nil => exact quiet still_pure
  | cons t rest ih =>
      refine Still.bind ?_ fun _ => ih
      refine (quiet still_getBroker).bind fun b => ?_
      split
      · exact ack_venue.bind fun _ => unexpect_venue.bind fun _ => quiet still_pure
      · refine send_venue.bind fun sent => ?_
        split
        · exact unexpect_venue.bind fun _ => quiet still_pure
        · exact readBack_venue

theorem rejectAll_venue {why : String} {ts : List Ticket} {acks : List Ack} :
    Still World.venue (rejectAll A H why ts acks) := by
  induction ts generalizing acks with
  | nil => exact still_venue (still_fixed still_pure)
  | cons t rest ih => exact ack_venue.bind fun _ => unexpect_venue.bind fun _ => ih

theorem drain_venue : Still World.venue (drain A H) := by
  have quiet : ∀ {α : Type} {p : M α}, Still World.held p → Still World.venue p :=
    fun h => still_venue (still_fixed h)
  refine (quiet still_requireConnected).bind fun _ => (quiet still_getBroker).bind fun b => ?_
  refine Still.bind (fun _ => rfl) fun _ => ?_
  split
  · exact quiet still_pure
  · refine Still.bind (fun _ => rfl) fun _ => (quiet still_lift).bind fun books => ?_
    refine (quiet still_startBook).bind fun start => ?_
    cases start with
    | error f =>
        dsimp only
        split
        · exact quiet still_fail
        · exact rejectAll_venue.bind fun _ => still_venue finish_fixed
    | ok before => exact drainTickets_venue.bind fun _ => still_venue finish_fixed

end TradeEngine.Tos
