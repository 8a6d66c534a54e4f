import TradeEngine.Tos.Lemmas.Recorded

/-!
# What a session keeps

A broker process that may send has every recorded ticket among its keys, so what its queue holds is new
to the ledger before the write-ahead and in it after. It was restored from a ledger that does not halt
its venue, with a proven order id on every open ticket, and its reconciles of the run were clean, unless
a drift was only replayed.
-/

namespace TradeEngine.Tos.Session

open Lib Prog Relation

variable {A : Arith} {sha256 : String → String} {H : Host} {digest : VenueReconcile → String} {disk : Disk}
  {venue : String} {α β : Type}

/-! ## The state -/

/-- The order placed was a queued ticket's, and its event was committed before. -/
def Passed.Ahead (venue : String) (p : Passed) : Prop :=
  ∃ t, p.ticket = some t ∧ t.venueOrderId = p.key ∧ ∃ e ∈ p.ledger.rows, e.account = accountFor venue ∧
    ∃ q, e.payload = .mQueued q ∧ queued venue t = .ok q

/-- Nothing is in doubt: no account halts the venue, every open ticket from before the run has a proven
order id, and the run's reconciles, at least one, were clean. -/
structure Sure (venue : String) (l : Ledger) (earlier : List String) (checks : List VenueReconcile) : Prop where
  running : venue ∉ l.halted
  proven : ∀ key ∈ earlier, ∀ t, (l.mirror venue).tickets.get key = some t → t.terminal = false →
    t.venueOrderId.isSome = true
  checked : checks ≠ []
  clean : ∀ e ∈ checks, e.reconciled = true

structure State.Ok (venue : String) (s : State) : Prop where
  ledger : s.ledger.Ok venue
  venue_eq : s.world.broker.venue = venue
  lined : s.world.desk.Lined
  placed : s.passed.map (·.key) = s.world.sends.map (·.key)
  once : (s.passed.map (·.key)).Nodup
  ahead : ∀ p ∈ s.passed, p.ledger.rows <+: s.ledger.rows ∧ p.Ahead venue
  listed : ∀ key ∈ s.earlier, ∃ t, (s.ledger.mirror venue).tickets.get key = some t
  sure : s.swallowed = [] → ∀ p ∈ s.passed, Sure venue p.ledger p.earlier p.checks
  running : ∀ p ∈ s.passed, venue ∉ p.ledger.halted

/-- The queue is empty, and every recorded ticket is among the keys. -/
def State.Known (venue : String) (s : State) : Prop :=
  s.world.broker.queue = [] ∧
    ∀ key t, (s.ledger.mirror venue).tickets.get key = some t → key ∈ s.world.broker.keys

def State.Trusted (venue : String) (s : State) : Prop :=
  venue ∉ s.ledger.halted ∧ (s.swallowed ≠ [] ∨ Sure venue s.ledger s.earlier s.checks)

/-- A broker that may send knows what the ledger recorded, and nothing is in doubt. -/
def State.Fresh (venue : String) (s : State) : Prop :=
  s.Ok venue ∧ (s.world.broker.halted = true ∨ s.Known venue ∧ s.Trusted venue)

theorem State.Ok.sent {s : State} (h : s.Ok venue) {key : String} (hkey : key ∈ s.world.sends.map (·.key)) :
    ∃ t, (s.ledger.mirror venue).tickets.get key = some t := by
  rw [← h.placed] at hkey
  obtain ⟨p, hp, rfl⟩ := List.mem_map.mp hkey
  obtain ⟨hpre, t, -, hkey, e, he, haccount, q, hq, hqueued⟩ := h.ahead p hp
  obtain ⟨found, hfound, -⟩ := h.ledger.recorded e (hpre.subset he) haccount q hq
  rw [(queued_ok hqueued).1, hkey] at hfound
  exact ⟨found, hfound⟩

/-- From a state in `P` the program returns in `Q`, and where it fails the state is still in order. -/
def Ensures (venue : String) (P : State → Prop) (p : S α) (Q : α → State → Prop) : Prop :=
  Triple P p Q fun _ => State.Ok venue

section Programs

variable {P P' : State → Prop} {Q : α → State → Prop}

theorem lift_ensures {x : R α} (hP : ∀ s, P s → s.Ok venue) : Ensures venue P (lift x) fun _ => P :=
  Triple.lift (fun _ _ _ h => h) fun _ s _ h => hP s h

theorem get_ensures : Ensures venue P get fun t s => t = s ∧ P s := fun _ hs => ⟨rfl, hs⟩

theorem fail_ensures {f : Fault} (hP : ∀ s, P s → s.Ok venue) : Ensures venue P (Prog.fail f : S α) Q :=
  Triple.fail hP

theorem Ensures.pre {p : S α} (h : Ensures venue P p Q) (hP : ∀ s, P' s → P s) : Ensures venue P' p Q :=
  h.weaken hP (fun _ _ h => h) fun _ _ h => h

theorem Ensures.post {p : S α} {R : α → State → Prop} (h : Ensures venue P p Q) (hQ : ∀ a s, Q a s → R a s) :
    Ensures venue P p R :=
  h.weaken (fun _ h => h) hQ fun _ _ h => h

theorem Ensures.returning {p : S α} {g : α → β} {Q : State → Prop} (h : Ensures venue P p fun _ => Q) :
    Ensures venue P (p >>= fun a => pure (g a)) fun _ => Q :=
  h.bind fun _ => Triple.pure fun _ h => h

theorem attempt_ensures {p : S α} {f : Except Fault α → S β} {E : State → Prop} {R : β → State → Prop}
    (hp : Triple P p Q fun _ => E) (hok : ∀ a, Ensures venue (Q a) (f (.ok a)) R)
    (herr : ∀ e, Ensures venue E (f (.error e)) R) : Ensures venue P (attempt p >>= f) R :=
  fun s hs => post_bind.mpr (post_attempt.mpr ((hp s hs).weaken (fun a s' h => hok a s' h)
    fun e s' h => herr e s' h))

end Programs

/-! ## Broker calls -/

def State.after (s : State) (w : World) : State :=
  { s with
    world := w
    passed := s.passed ++ (w.sends.drop s.world.sends.length).map fun send =>
      ⟨send.key, s.world.broker.queue.find? (·.venueOrderId = send.key), s.ledger, s.earlier, s.checks⟩ }

def State.on (s : State) (w : World) : State := { s with world := w }

theorem onBroker_apply (p : M α) (s : State) : onBroker p s = ((p s.world).1, s.after (p s.world).2) := rfl

theorem after_quiet {s : State} {w : World} (h : w.fixed = s.world.fixed) : s.after w = s.on w := by
  have hsends : w.sends = s.world.sends := congrArg Prod.snd h
  simp [State.after, State.on, hsends]

theorem quiet_spec {p : M α} (hfixed : Still World.fixed p) (s : State) :
    Post (fun a s' => s' = s.on (p s.world).2 ∧ p s.world = (.ok a, (p s.world).2))
      (fun _ s' => s' = s.on (p s.world).2) (onBroker p s) := by
  rw [onBroker_apply, after_quiet (hfixed s.world)]
  rcases p s.world with ⟨f | a, w⟩
  · exact rfl
  · exact ⟨rfl, rfl⟩

theorem State.Ok.moved {s : State} {w : World} (h : s.Ok venue) (hmoves : ReflTransGen Move s.world.desk w.desk)
    (hfixed : w.fixed = s.world.fixed) : (s.on w).Ok venue := by
  have hsends : w.sends = s.world.sends := congrArg Prod.snd hfixed
  have hvenue : w.broker.venue = s.world.broker.venue := congrArg Prod.fst hfixed
  exact ⟨h.ledger, hvenue.trans h.venue_eq, lined_move.path hmoves h.lined, hsends ▸ h.placed, h.once, h.ahead,
    h.listed, h.sure, h.running⟩

theorem quiet_ok {p : M α} (hfixed : Still World.fixed p) (hmoves : Moves p) :
    Ensures venue (State.Ok venue) (onBroker p) fun _ => State.Ok venue := by
  intro s hs
  have hmoved := hs.moved (hmoves s.world) (hfixed s.world)
  exact (quiet_spec hfixed s).weaken (fun _ _ h => h.1 ▸ hmoved) fun _ _ h => h ▸ hmoved

theorem State.Known.read {s : State} {w : World} (h : s.Known venue) (hw : w.line = s.world.line) :
    (s.on w).Known venue := by
  simp only [World.line, Prod.mk.injEq] at hw
  exact ⟨hw.2.1.trans h.1, fun key t ht => hw.2.2 ▸ h.2 key t ht⟩

theorem read_keeps {T : State → Prop} {p : M α} (hline : Still World.line p) (hmoves : Moves p)
    (hT : ∀ s w, T s → T (s.on w)) {s : State} (hs : s.Ok venue)
    (hmay : s.world.broker.halted = true ∨ s.Known venue ∧ T s) :
    Post (fun a s' => (s'.Ok venue ∧ (s'.world.broker.halted = true ∨ s'.Known venue ∧ T s')) ∧
        p s.world = (.ok a, s'.world)) (fun _ => State.Ok venue) (onBroker p s) := by
  have hmoved := hs.moved (hmoves s.world) (line_fixed hline s.world)
  refine (quiet_spec (line_fixed hline) s).weaken (fun _ _ h => ?_) fun _ _ h => h ▸ hmoved
  rw [h.1]
  exact ⟨⟨hmoved, hmay.imp (halted_move.path (hmoves s.world)) fun h => ⟨h.1.read (hline s.world), hT _ _ h.2⟩⟩, h.2⟩

theorem read_fresh {p : M α} (hline : Still World.line p) (hmoves : Moves p) :
    Ensures venue (State.Fresh venue) (onBroker p) fun _ => State.Fresh venue :=
  fun _ hs => (read_keeps hline hmoves (fun _ _ h => h) hs.1 hs.2).weaken (fun _ _ h => h.1) fun _ _ h => h

theorem now_ok : Ensures venue (State.Ok venue) (onBroker (ask H.now)) fun _ => State.Ok venue :=
  quiet_ok (still_fixed still_ask) (.still still_ask)

theorem now_fresh : Ensures venue (State.Fresh venue) (onBroker (ask H.now)) fun _ => State.Fresh venue :=
  read_fresh (still_line still_ask) (.still still_ask)

/-- A broker restored from the fold knows what the ledger recorded, and is halted where the ledger halts
its venue. -/
theorem restore_spec {s : State} (hs : s.Ok venue) :
    Post (fun _ s' => s'.Ok venue ∧ s'.Known venue ∧ (venue ∈ s.ledger.halted → s'.world.broker.halted = true) ∧
      ∃ w, s' = s.on w) (fun _ => State.Ok venue) (restore A venue s) := by
  change Post _ _ (onBroker (Tos.restore A (s.ledger.mirror venue) s.ledger.halted) s)
  have hmoved : (s.on (Tos.restore A (s.ledger.mirror venue) s.ledger.halted s.world).2).Ok venue :=
    hs.moved (restore_moves s.world) (restore_fixed s.world)
  refine (quiet_spec restore_fixed s).weaken (fun _ s' h => ?_) fun _ _ h => h ▸ hmoved
  obtain ⟨rfl, hr⟩ := h
  obtain ⟨hqueue, sent, expected, -, -, hw⟩ := restore_ok hr
  refine ⟨hmoved, ⟨?_, fun key t ht => ?_⟩, fun hhalt => ?_, _, rfl⟩
  · simp only [State.on]
    rw [hw]
    exact hqueue
  · -- a ticket is stored under its own key
    obtain ⟨k, hmem⟩ := OMap.mem_of_get ht
    have hname := hs.ledger.keyed.named _ hmem
    have hkey : key ∈ (s.ledger.mirror venue).tickets.entries.map (·.1) :=
      List.mem_map.mpr ⟨(k, t), List.mem_map.mpr ⟨(key, k, t), hmem, rfl⟩, hname.symm⟩
    simp only [State.on]
    rw [hw]
    exact List.mem_append_right _ hkey
  · simp only [State.on]
    rw [hw]
    simp [hs.venue_eq, hhalt]

theorem restore_ensures : Ensures venue (State.Ok venue) (restore A venue) fun _ => State.Ok venue :=
  fun _ hs => (restore_spec hs).weaken (fun _ _ h => h.1) fun _ _ h => h

theorem cancel_ok {key : String} :
    Ensures venue (State.Ok venue) (onBroker (Tos.cancel A H key)) fun _ => State.Ok venue :=
  quiet_ok cancel_fixed cancel_moves

/-! ## Appends -/

/-- What an append leaves of a state, its ledger apart. -/
structure Kept (s s' : State) : Prop where
  desk : s'.world.desk = s.world.desk
  fixed : s'.world.fixed = s.world.fixed
  passed : s'.passed = s.passed
  earlier : s'.earlier = s.earlier
  checks : s'.checks = s.checks
  swallowed : s'.swallowed = s.swallowed

theorem Kept.refl (s : State) : Kept s s := ⟨rfl, rfl, rfl, rfl, rfl, rfl⟩

theorem extend_spec {events : List Event} (s : State) :
    Post (fun _ s' => Kept s s' ∧ Committed A events s.ledger s'.ledger)
      (fun _ s' => Kept s s' ∧ (s'.ledger = s.ledger ∨ Committed A events s.ledger s'.ledger))
      (extend A disk events s) := by
  unfold extend
  dsimp only
  split
  · exact ⟨⟨rfl, rfl, rfl, rfl, rfl, rfl⟩, .inl rfl⟩
  · exact ⟨⟨rfl, rfl, rfl, rfl, rfl, rfl⟩, .inl rfl⟩
  · rename_i written _ hwritten
    exact ⟨⟨rfl, rfl, rfl, rfl, rfl, rfl⟩, [], written.2, hwritten⟩
  · rename_i written _ hwritten
    exact ⟨⟨rfl, rfl, rfl, rfl, rfl, rfl⟩, .inr ⟨[], written.2, hwritten⟩⟩

theorem Kept.trans {s s' s'' : State} (h : Kept s s') (h' : Kept s' s'') : Kept s s'' :=
  ⟨h'.desk.trans h.desk, h'.fixed.trans h.fixed, h'.passed.trans h.passed, h'.earlier.trans h.earlier,
    h'.checks.trans h.checks, h'.swallowed.trans h.swallowed⟩

/-- An append that returns was committed, and one that fails was committed or wrote nothing. -/
theorem append_spec {items : List (Obj × String)} (s : State) :
    Post (fun _ s' => Kept s s' ∧ Books A venue items s.ledger s'.ledger)
      (fun _ s' => Kept s s' ∧ (s'.ledger = s.ledger ∨ Books A venue items s.ledger s'.ledger))
      (append A H disk venue items s) := by
  unfold append
  split
  · rename_i hnil
    subst hnil
    exact ⟨.refl s, err .value "", [], rfl, [], [], rfl⟩
  · refine post_bind.mpr ((quiet_spec (still_fixed still_ask) s).weaken (fun now s₁ h => ?_) fun _ s₁ h => ?_)
    · obtain ⟨rfl, -⟩ := h
      have hkept : Kept s (s.on (ask H.now s.world).2) := ⟨rfl, rfl, rfl, rfl, rfl, rfl⟩
      refine post_bind.mpr (Post.lift (fun events hevents => ?_) fun _ _ => ⟨hkept, .inl rfl⟩)
      have hitems := except_mapError_eq_ok.mp hevents
      refine (extend_spec _).weaken (fun _ s' h => ?_) fun _ s' h => ?_
      · exact ⟨hkept.trans h.1, now, events, hitems, h.2⟩
      · exact ⟨hkept.trans h.1, h.2.imp id fun h => ⟨now, events, hitems, h⟩⟩
    · rw [h]
      exact ⟨⟨rfl, rfl, rfl, rfl, rfl, rfl⟩, .inl rfl⟩

theorem State.Ok.booked {s s' : State} (h : s.Ok venue) (hkept : Kept s s') (hl : s'.ledger.Ok venue)
    (hgrows : Grows venue s.ledger s'.ledger) : s'.Ok venue := by
  have hsends : s'.world.sends = s.world.sends := congrArg Prod.snd hkept.fixed
  have hvenue : s'.world.broker.venue = s.world.broker.venue := congrArg Prod.fst hkept.fixed
  constructor
  case ledger => exact hl
  case venue_eq => exact hvenue.trans h.venue_eq
  case lined => exact hkept.desk ▸ h.lined
  case placed =>
    rw [hkept.passed, hsends]
    exact h.placed
  case once => exact hkept.passed ▸ h.once
  case ahead =>
    intro p hp
    rw [hkept.passed] at hp
    exact ⟨(h.ahead p hp).1.trans hgrows.rows, (h.ahead p hp).2⟩
  case listed =>
    intro key hkey
    rw [hkept.earlier] at hkey
    obtain ⟨t, ht⟩ := h.listed key hkey
    obtain ⟨t', ht', -⟩ := hgrows.keeps key t ht
    exact ⟨t', ht'⟩
  case sure =>
    rw [hkept.swallowed, hkept.passed]
    exact h.sure
  case running => exact hkept.passed ▸ h.running

theorem append_full {items : List (Obj × String)} (hitems : ∀ i ∈ items, Named i) {s : State}
    (hs : s.Ok venue) : Post (fun _ s' => s'.Ok venue ∧ Kept s s' ∧ Books A venue items s.ledger s'.ledger)
      (fun _ => State.Ok venue) (append A H disk venue items s) := by
  have hbooks : ∀ {s' : State}, Kept s s' → Books A venue items s.ledger s'.ledger → s'.Ok venue := by
    intro s' hkept hbooks
    obtain ⟨hl, hgrows⟩ := hbooks.grows hs.ledger hitems
    exact hs.booked hkept hl hgrows
  refine (append_spec s).weaken (fun _ s' h => ⟨hbooks h.1 h.2, h⟩) fun _ s' h => ?_
  obtain ⟨hkept, hsame | h⟩ := h
  · exact hs.booked hkept (hsame ▸ hs.ledger) (hsame ▸ .refl _)
  · exact hbooks hkept h

theorem append_ok {items : List (Obj × String)} (hitems : ∀ i ∈ items, Named i) :
    Ensures venue (State.Ok venue) (append A H disk venue items) fun _ => State.Ok venue :=
  fun _ hs => (append_full hitems hs).weaken (fun _ _ h => h.1) fun _ _ h => h

theorem named_singleton {item : Obj × String} (h : Named item) : ∀ i ∈ [item], Named i := by
  intro i hi
  rw [List.mem_singleton.mp hi]
  exact h

theorem noted_ok {event : VenueReconcile} {phase : String} {s : State} (hs : s.Ok venue) :
    (noted digest venue event phase s).Ok venue := by
  refine ⟨hs.ledger, hs.venue_eq, hs.lined, hs.placed, hs.once, hs.ahead, hs.listed, fun hnone => hs.sure ?_,
    hs.running⟩
  simp only [noted] at hnone
  split at hnone
  · exact absurd hnone (by simp)
  · exact hnone

theorem reconcile_spec {event : VenueReconcile} {phase : String} {s : State} (hs : s.Ok venue) :
    Post (fun _ s' => s'.Ok venue ∧ Kept (noted digest venue event phase s) s' ∧
        Books A venue [(.reconcile event, reconcileSuffix digest event phase)] s.ledger s'.ledger)
      (fun _ => State.Ok venue) (reconcile A H digest disk venue event phase s) := by
  refine post_bind.mpr ?_
  change Post _ _ ((append A H disk venue [(.reconcile event, reconcileSuffix digest event phase)] >>= _ :
    S VenueReconcile) (noted digest venue event phase s))
  refine post_bind.mpr ((append_full (named_singleton (named_reconcile event phase)) (noted_ok hs)).weaken
    (fun written s' h => ?_) fun _ _ h => h)
  split
  · exact h
  · exact (Triple.lift (fun _ _ _ h => h) fun _ _ _ h => h.1) s' h

theorem reconcile_ok {event : VenueReconcile} {phase : String} :
    Ensures venue (State.Ok venue) (reconcile A H digest disk venue event phase) fun _ => State.Ok venue :=
  fun _ hs => (reconcile_spec hs).weaken (fun _ _ h => h.1) fun _ _ h => h

theorem reconcile_drift {event : VenueReconcile} {phase : String} (hdrift : event.reconciled = false)
    (hvenue : event.venue = venue) :
    Ensures venue (State.Ok venue) (reconcile A H digest disk venue event phase)
      fun _ s => s.Ok venue ∧ (venue ∈ s.ledger.halted ∨ s.swallowed ≠ []) := by
  intro s hs
  refine (reconcile_spec hs).weaken (fun _ s' h => ?_) fun _ _ h => h
  obtain ⟨hok, hkept, hbooks⟩ := h
  refine ⟨hok, ?_⟩
  rcases hbooks.drift hdrift with ⟨hstored, hsame⟩ | hhalt
  · by_cases hhalted : venue ∈ s.ledger.halted
    · exact .inl (hsame ▸ hhalted)
    · refine .inr ?_
      rw [hkept.swallowed, noted, if_pos ⟨hdrift, hstored, hhalted⟩]
      simp
  · exact .inl (hvenue ▸ hhalt)

theorem reconcile_stopped {event : VenueReconcile} {phase : String} :
    Ensures venue (fun s => s.Ok venue ∧ s.world.broker.halted = true)
      (reconcile A H digest disk venue event phase)
      fun _ s => s.Ok venue ∧ s.world.broker.halted = true := by
  rintro s ⟨hs, hhalt⟩
  refine (reconcile_spec hs).weaken (fun _ s' h => ⟨h.1, ?_⟩) fun _ _ h => h
  exact (congrArg Desk.halted h.2.1.desk).trans hhalt

/-! ## Collecting -/

/-- No open ticket is without a proven order id, and the run has no reconcile yet. -/
def State.Proven (venue : String) (s : State) : Prop :=
  s.checks = [] ∧ unproven (s.ledger.mirror venue) = []

/-- Whatever is unproven halts the venue, or its drift was swallowed. -/
def Probed (venue : String) (s : State) : Prop :=
  s.Ok venue ∧ (venue ∈ s.ledger.halted ∨ s.swallowed ≠ [] ∨ s.Proven venue)

/-- The broker is halted, or it knows the ledger and the ledger lets it send. -/
def Restored (venue : String) (s : State) : Prop :=
  s.Ok venue ∧ (s.world.broker.halted = true ∨ s.Known venue ∧
    venue ∉ s.ledger.halted ∧ (s.swallowed ≠ [] ∨ s.Proven venue))

theorem venueReconcile_fields {asOf : Stamp} {reconciled : Bool} {drift : List String} {note : Option String}
    {n : VenueReconcile} (h : venueReconcile venue asOf reconciled drift note = .ok n) :
    n.venue = venue ∧ n.reconciled = reconciled := by
  unfold venueReconcile at h
  split at h
  · cases h
  · simp only [bind_eq_ok] at h
    obtain ⟨t, -, h⟩ := h
    split at h
    · cases h
    · split at h <;> cases h
      exact ⟨rfl, rfl⟩

theorem haltUnproven_probed {phase : String} :
    Ensures venue (fun s => s.Ok venue ∧ s.checks = []) (haltUnproven A H digest disk venue phase)
      fun _ => Probed venue := by
  refine get_ensures.bind fun t => Triple.ite (fun hnone => Triple.pure fun s hs => ?_) fun _ => ?_
  · obtain ⟨rfl, hok, hchecks⟩ := hs
    exact ⟨hok, .inr (.inr ⟨hchecks, List.length_eq_zero_iff.mp hnone⟩)⟩
  · refine (lift_ensures fun _ h => h.2.1).bind fun names => ?_
    refine (now_ok.pre fun _ h => h.2.1).bind fun now => ?_
    intro s hs
    refine post_bind.mpr (Post.lift (fun halt hhalt => ?_) fun _ _ => hs)
    obtain ⟨hvenue, hdrift⟩ := venueReconcile_fields (except_mapError_eq_ok.mp hhalt)
    refine ((reconcile_drift hdrift hvenue).bind fun written => Triple.pure fun s h => ?_) s hs
    exact ⟨h.1, h.2.imp id .inl⟩

theorem haltUnproven_ok {phase : String} :
    Ensures venue (State.Ok venue) (haltUnproven A H digest disk venue phase) fun _ => State.Ok venue := by
  refine get_ensures.bind fun t => Triple.ite (fun _ => Triple.pure fun _ hs => hs.2) fun _ => ?_
  refine (lift_ensures fun _ hs => hs.2).bind fun names => (now_ok.pre fun _ hs => hs.2).bind fun now => ?_
  refine (lift_ensures fun _ hs => hs).bind fun halt => ?_
  exact reconcile_ok.bind fun written => Triple.pure fun _ hs => hs

theorem restore_restored : Ensures venue (Probed venue) (restore A venue) fun _ => Restored venue := by
  rintro s ⟨hs, hprobed⟩
  refine (restore_spec hs).weaken (fun _ s' h => ?_) fun _ _ h => h
  obtain ⟨hok, hknown, hhalt, w, rfl⟩ := h
  refine ⟨hok, ?_⟩
  by_cases hhalted : venue ∈ s.ledger.halted
  · exact .inl (hhalt hhalted)
  · exact .inr ⟨hknown, hhalted, hprobed.resolve_left hhalted⟩

theorem cannotBook_fresh {fills : List MirrorFill} {why : String} :
    Ensures venue (State.Ok venue) (cannotBook A H digest disk venue fills why)
      fun _ => State.Fresh venue := by
  refine get_ensures.bind fun t => ?_
  refine (lift_ensures fun _ hs => hs.2).bind fun units => (lift_ensures fun _ hs => hs.2).bind fun found => ?_
  refine (now_ok.pre fun _ hs => hs.2).bind fun now => ?_
  intro s hs
  refine post_bind.mpr (Post.lift (fun halt hhalt => ?_) fun _ _ => hs)
  obtain ⟨hvenue, hdrift⟩ := venueReconcile_fields (except_mapError_eq_ok.mp hhalt)
  refine post_bind.mpr ((reconcile_drift hdrift hvenue s hs).weaken (fun written s' h => ?_) fun _ _ h => h)
  refine post_bind.mpr ((restore_spec h.1).weaken (fun _ s'' h' => ?_) fun _ _ h => h)
  obtain ⟨hok, hknown, hhalts, w, rfl⟩ := h'
  by_cases hhalted : venue ∈ s'.ledger.halted
  · exact ⟨hok, .inl (hhalts hhalted)⟩
  · exact ⟨hok, .inr ⟨hknown, hhalted, .inl (h.2.resolve_left hhalted)⟩⟩

/-- Where the session goes on after collecting, the broker is fresh. -/
def Collected (venue : String) (r : Report) (s : State) : Prop :=
  s.Ok venue ∧ (r.deferred = none → s.Fresh venue)

theorem mem_openTickets {m : MirrorState} {key : String} {t : MirrorTicketState}
    (ht : m.tickets.get key = some t) (hopen : t.terminal = false) : t ∈ m.openTickets := by
  obtain ⟨k, hmem⟩ := OMap.mem_of_get ht
  have hentry : (k, t) ∈ m.tickets.entries := List.mem_map.mpr ⟨(key, k, t), hmem, rfl⟩
  refine List.mem_filter.mpr ⟨List.mem_map.mpr ⟨(k, t), ?_, rfl⟩, by simp [hopen]⟩
  exact (List.mem_insertionSort _).mpr hentry

theorem reconcile_restored {event : VenueReconcile} {phase : String} (hclean : event.reconciled = true) :
    Ensures venue (Restored venue) (reconcile A H digest disk venue event phase)
      fun _ => State.Fresh venue := by
  rintro s ⟨hs, hrestored⟩
  refine (reconcile_spec hs).weaken (fun _ s' h => ?_) fun _ _ h => h
  obtain ⟨hok, hkept, hbooks⟩ := h
  have hdesk := hkept.desk
  simp only [World.desk, Desk.mk.injEq, noted] at hdesk
  obtain ⟨hqueue, hkeys, hhalted, -⟩ := hdesk
  refine ⟨hok, hrestored.imp (fun h => hhalted.trans h) fun hmay => ⟨⟨?_, ?_⟩, ?_⟩⟩
  · exact hqueue.trans hmay.1.1
  · rw [hbooks.reconciled, hkeys]
    exact hmay.1.2
  · have hswallowed : s'.swallowed = s.swallowed := by
      rw [hkept.swallowed, noted, if_neg]
      exact fun h => absurd (hclean.symm.trans h.1) (by simp)
    have hrunning : venue ∉ s'.ledger.halted := fun h => hmay.2.1 ((hbooks.clean hclean venue).mp h)
    refine ⟨hrunning, hmay.2.2.imp (fun h => hswallowed ▸ h) fun hsafe => ?_⟩
    obtain ⟨hchecks, hproven⟩ := hsafe
    constructor
    case running => exact hrunning
    case proven =>
      intro key _ t ht hopen
      rw [hbooks.reconciled] at ht
      have hmem := List.filter_eq_nil_iff.mp hproven t (mem_openTickets ht hopen)
      cases hid : t.venueOrderId <;> simp [hid] at hmem ⊢
    case checked =>
      rw [hkept.checks]
      simp [noted]
    case clean =>
      intro e he
      rw [hkept.checks] at he
      simp only [noted, hchecks, List.nil_append, List.mem_singleton] at he
      exact he ▸ hclean

theorem closing_collected {written : List Obj} :
    Ensures venue (fun s => s.Ok venue ∧ s.checks = []) (closing A H digest disk venue written)
      (Collected venue) := by
  refine haltUnproven_probed.bind fun _ => restore_restored.bind fun _ => ?_
  intro s hs
  have hread := read_keeps (T := fun s => venue ∉ s.ledger.halted ∧ (s.swallowed ≠ [] ∨ s.Proven venue))
    (p := reconcileNow A H true) reconcileNow_line reconcileNow_moves (fun _ _ h => h) hs.1 hs.2
  refine post_bind.mpr (post_attempt.mpr (hread.weaken (fun event s' h => ?_) fun f s' h => ?_))
  · obtain ⟨hrestored, hevent⟩ := h
    refine post_bind.mpr (Post.weaken (Q := fun _ => State.Fresh venue) ?_ (fun check s' h => ?_) fun _ _ h => h)
    · by_cases hclean : event.reconciled = true
      · exact reconcile_restored hclean s' hrestored
      · have hhalts := (reconcileNow_halts s.world).ok hevent (by simpa using hclean)
        exact (reconcile_stopped s' ⟨hrestored.1, hhalts⟩).weaken (fun _ _ h => ⟨h.1, .inl h.2⟩) fun _ _ h => h
    · exact ⟨h.1, fun _ => h⟩
  · refine (Triple.ite (fun _ => get_ensures.bind fun t => ?_) fun _ => fail_ensures fun _ h => h) s' h
    exact Triple.pure fun _ hs => ⟨hs.2, fun h => absurd h (Option.some_ne_none _)⟩

theorem items_named {fills : List MirrorFill} {closes : List MirrorAck} :
    ∀ i ∈ fills.map fillItem ++ closes.map closeItem, Named i := by
  intro i hi
  rcases List.mem_append.mp hi with hi | hi
  · obtain ⟨f, -, rfl⟩ := List.mem_map.mp hi
    exact named_fill f
  · obtain ⟨a, -, rfl⟩ := List.mem_map.mp hi
    exact named_close a

theorem begun_ok {s : State} (hs : s.Ok venue) : (begun venue s).Ok venue := by
  refine ⟨hs.ledger, hs.venue_eq, hs.lined, hs.placed, hs.once, hs.ahead, fun key hkey => ?_, hs.sure, hs.running⟩
  -- a ticket is listed under its own key
  obtain ⟨entry, hentry, rfl⟩ := List.mem_map.mp hkey
  obtain ⟨e, hmem, rfl⟩ := List.mem_map.mp hentry
  rw [← hs.ledger.keyed.named _ hmem]
  exact ⟨e.2.2, OMap.get_of_mem hmem⟩

section Collecting

variable (hnow : ∀ n event, H.now n ≠ .error (.unreadable event))
  (hable : ∀ n event, H.canReadFills n ≠ .error (.unreadable event))

include hnow hable

/-- Fills that were read leave the state in order, and an unreadable venue has halted the broker. -/
theorem collectFills_spec {m : MirrorState} {s : State} (hs : s.Ok venue ∧ s.checks = []) :
    Post (fun _ s' => s'.Ok venue ∧ s'.checks = [])
      (fun f s' => s'.Ok venue ∧ ∀ event, f = .unreadable event → s'.world.broker.halted = true)
      (onBroker (collectFills A H m) s) := by
  have hmoved := hs.1.moved (collectFills_moves (A := A) (H := H) (m := m) s.world)
    (line_fixed collectFills_line s.world)
  have hhonest := collectFills_honest (A := A) (m := m) hnow hable s.world
  rw [onBroker_apply, after_quiet (line_fixed collectFills_line s.world)]
  revert hmoved hhonest
  rcases collectFills A H m s.world with ⟨f | collection, w⟩
  · exact fun hmoved hhonest => ⟨hmoved, hhonest⟩
  · exact fun hmoved _ => ⟨hmoved, hs.2⟩

theorem collect_collected : Ensures venue (State.Ok venue) (collect A H digest disk venue) (Collected venue) := by
  refine Triple.bind (Q := fun _ s => s.Ok venue ∧ s.checks = []) (fun s hs => ⟨begun_ok hs, rfl⟩) fun _ => ?_
  refine get_ensures.bind fun t => ?_
  intro s hs
  refine post_bind.mpr (post_attempt.mpr ((collectFills_spec hnow hable hs.2).weaken (fun c s hs => ?_)
    fun f s hs => ?_))
  · -- the fills are appended, and a refusal of the fold halts the venue
    refine attempt_ensures (E := State.Ok venue) (Q := fun _ s => s.Ok venue ∧ s.checks = [])
      (P := fun s => s.Ok venue ∧ s.checks = []) (fun s hs => ?_) (fun written => ?_) (fun f => ?_) s hs
    · refine (append_full items_named hs.1).weaken (fun _ s' h => ⟨h.1, ?_⟩) fun _ _ h => h
      exact h.2.1.checks.trans hs.2
    · exact closing_collected
    · dsimp only
      split
      · exact cannotBook_fresh.post fun _ _ h => ⟨h.1, fun _ => h⟩
      · exact fail_ensures fun _ h => h
  · cases f with
    | unreadable event =>
        have hstopped : s.Ok venue ∧ s.world.broker.halted = true := ⟨hs.1, hs.2 event rfl⟩
        refine (reconcile_stopped.bind fun written => Triple.pure fun s h => ?_) s hstopped
        exact ⟨h.1, fun _ => ⟨h.1, .inl h.2⟩⟩
    | _ =>
        refine (Triple.ite (fun _ => get_ensures.bind fun t => ?_) fun _ => fail_ensures fun _ h => h) s hs.1
        exact Triple.pure fun _ h => ⟨h.2, fun h => absurd h (Option.some_ne_none _)⟩

end Collecting

/-! ## Sending -/

theorem dropQueue_ok : Ensures venue (State.Ok venue) (dropQueue A H) fun _ => State.Ok venue := by
  refine get_ensures.bind fun t => ?_
  refine Ensures.pre (P := State.Ok venue) ?_ fun _ h => h.2
  exact Triple.forEach fun t _ => cancel_ok.bind fun _ => Triple.pure fun _ h => h

/-- What the queue holds is new to the ledger, each ticket is the first of the batch under its key, and
nothing is in doubt. -/
def Netted (venue : String) (batch : Batch) (s : State) : Prop :=
  s.Ok venue ∧ (s.world.broker.halted = true ∨ s.Trusted venue ∧ ∀ t ∈ s.world.broker.queue,
    (s.ledger.mirror venue).tickets.get t.venueOrderId = none ∧ First batch.venueOrders t)

theorem mirrorBatch_netted {orders : List NOrder} {holdings : OMap (String × Contract) Money} :
    Ensures venue (State.Fresh venue) (onBroker (mirrorBatch A sha256 H orders holdings)) (Netted venue) := by
  intro s hs
  have hpath : ReflTransGen Move s.world.desk (mirrorBatch A sha256 H orders holdings s.world).2.desk :=
    mirrorBatch_moves s.world
  have hmoved := hs.1.moved hpath (mirrorBatch_fixed s.world)
  refine (quiet_spec mirrorBatch_fixed s).weaken (fun batch s' h => ?_) fun _ _ h => h ▸ hmoved
  obtain ⟨rfl, hr⟩ := h
  refine ⟨hmoved, hs.2.imp (halted_move.path hpath) fun hmay => ⟨hmay.2, fun t ht => ?_⟩⟩
  have hknown := hmay.1
  obtain ⟨hnew, hfirst⟩ := (mirrorBatch_filled hknown.1).ok hr t ht
  refine ⟨?_, hfirst⟩
  cases hget : (s.ledger.mirror venue).tickets.get t.venueOrderId with
  | none => exact hget
  | some found => exact absurd (hknown.2 _ found hget) hnew

/-- What the queue holds was never sent, its event is committed, and nothing is in doubt. -/
def Written (venue : String) (s : State) : Prop :=
  s.Ok venue ∧ (s.world.broker.halted = true ∨ s.Trusted venue ∧ ∀ t ∈ s.world.broker.queue,
    t.venueOrderId ∉ s.world.sends.map (·.key) ∧ ∃ e ∈ s.ledger.rows, e.account = accountFor venue ∧
      ∃ q, e.payload = .mQueued q ∧ queued venue t = .ok q)

theorem Trusted.prepared {s s' : State} {items : List (Obj × String)} (hs : s.Ok venue)
    (h : s.Trusted venue) (hkept : Kept s s') (hbooks : Books A venue items s.ledger s'.ledger)
    (hitems : ∀ i ∈ items, Prepares i) : s'.Trusted venue := by
  obtain ⟨hhalted, htickets⟩ := hbooks.prepares hitems
  have hrunning : venue ∉ s'.ledger.halted := fun hmem => h.1 ((hhalted venue).mp hmem)
  refine ⟨hrunning, h.2.imp (fun h => hkept.swallowed ▸ h) fun h => ?_⟩
  rw [hkept.earlier, hkept.checks]
  constructor
  case running => exact hrunning
  case proven =>
    intro key hkey t ht hopen
    obtain ⟨found, hfound⟩ := hs.listed key hkey
    cases (htickets key found hfound).symm.trans ht
    exact h.proven key hkey t hfound hopen
  case checked => exact h.checked
  case clean => exact h.clean

/-- The write-ahead append records every ticket of the queue, or nothing stays queued. -/
theorem writeAhead_written {orders : List Order} {now : Stamp} {coverRefused : List (String × String)}
    {batch : Batch} {items : List (Obj × String)} {s : State}
    (hitems : batchItems venue orders now coverRefused batch (s.world.broker.queue.map (·.venueOrderId)) =
      .ok items) (hs : Netted venue batch s) :
    Post (fun _ => Written venue) (fun _ => State.Ok venue) (writeAhead A H disk venue items s) := by
  obtain ⟨hall, hfirst⟩ := batchItems_ok hitems
  have hnamed : ∀ i ∈ items, Named i := fun i hi => (hall i hi).1
  refine post_bind.mpr (post_attempt.mpr ((append_full hnamed hs.1).weaken (fun written s' h => ?_)
    fun f s' h => ?_))
  · obtain ⟨hok, hkept, hbooks⟩ := h
    have hdesk := hkept.desk
    simp only [World.desk, Desk.mk.injEq] at hdesk
    obtain ⟨hqueue, -, hhalted, hsends⟩ := hdesk
    refine ⟨hok, hs.2.imp (fun h => hhalted.trans h) fun hmay => ⟨?_, fun t ht => ?_⟩⟩
    · exact Trusted.prepared hs.1 hmay.1 hkept hbooks fun i hi => (hall i hi).2
    · rw [hqueue] at ht
      obtain ⟨hnone, hone⟩ := hmay.2 t ht
      refine ⟨fun hsent => ?_, ?_⟩
      · rw [hsends] at hsent
        obtain ⟨found, hfound⟩ := hs.1.sent hsent
        rw [hnone] at hfound
        cases hfound
      · obtain ⟨q, before, after, hq, rfl, hbefore⟩ := hfirst t (List.mem_map_of_mem ht) hone
        rw [← (queued_ok hq).1] at hnone
        obtain ⟨row, hrow, hpayload, haccount⟩ := hbooks.stored hs.1.ledger hnamed hnone hbefore
        exact ⟨row, hrow, haccount, q, hpayload, hq⟩
  · refine (Triple.ite (fun _ => fail_ensures fun _ h => h) fun _ => ?_) s' h
    exact dropQueue_ok.bind fun _ => fail_ensures fun _ h => h

/-- A drain sends only what was written ahead, each ticket of it once, and nothing where a thing is in
doubt. -/
theorem drain_ok : Ensures venue (Written venue) (onBroker (Tos.drain A H)) fun _ => State.Ok venue := by
  intro s hs
  obtain ⟨hok, hwritten⟩ := hs
  obtain ⟨sends, hsends, hsub, hhalt⟩ := drain_placed (A := A) (H := H) s.world
  have hpath : ReflTransGen Move s.world.desk (Tos.drain A H s.world).2.desk := drain_moves s.world
  have hvenue : (Tos.drain A H s.world).2.broker.venue = s.world.broker.venue := drain_venue s.world
  -- every order placed is a queued ticket's
  have hticket : ∀ send ∈ sends, ∃ t ∈ s.world.broker.queue, t.venueOrderId = send.key ∧
      s.world.broker.queue.find? (·.venueOrderId = send.key) = some t := by
    intro send hsend
    obtain ⟨t, ht, hkey⟩ := List.mem_map.mp (hsub.subset (List.mem_map_of_mem hsend))
    refine ⟨t, ht, hkey, ?_⟩
    cases hfind : s.world.broker.queue.find? (·.venueOrderId = send.key) with
    | none => exact absurd hkey (by simpa using List.find?_eq_none.mp hfind t ht)
    | some u =>
        have hu : u.venueOrderId = send.key := by simpa using List.find?_some hfind
        have hmem := List.mem_of_find?_eq_some hfind
        rw [List.inj_on_of_nodup_map hok.lined.1 hmem ht (hu.trans hkey.symm)]
  have hmay : ∀ send ∈ sends, s.Trusted venue ∧ ∀ t ∈ s.world.broker.queue,
      t.venueOrderId ∉ s.world.sends.map (·.key) ∧ ∃ e ∈ s.ledger.rows, e.account = accountFor venue ∧
        ∃ q, e.payload = .mQueued q ∧ queued venue t = .ok q := by
    intro send hsend
    refine hwritten.resolve_left fun h => ?_
    rw [hhalt h] at hsend
    cases hsend
  have hdrop : (Tos.drain A H s.world).2.sends.drop s.world.sends.length = sends := by
    rw [hsends, List.drop_left]
  have hkeys : (s.after (Tos.drain A H s.world).2).passed.map (·.key) =
      (Tos.drain A H s.world).2.sends.map (·.key) := by
    simp only [State.after, hdrop, List.map_append, List.map_map, hok.placed]
    rw [hsends, List.map_append]
    rfl
  have hafter : (s.after (Tos.drain A H s.world).2).Ok venue := by
    constructor
    case ledger => exact hok.ledger
    case venue_eq => exact hvenue.trans hok.venue_eq
    case lined => exact lined_move.path hpath hok.lined
    case placed => exact hkeys
    case once =>
      rw [hkeys, hsends, List.map_append]
      refine (hok.placed ▸ hok.once).append (hok.lined.1.sublist hsub) ?_
      intro key hold hkey
      obtain ⟨send, hsend, rfl⟩ := List.mem_map.mp hkey
      obtain ⟨t, ht, hkey, -⟩ := hticket send hsend
      exact ((hmay send hsend).2 t ht).1 (hkey ▸ hold)
    case ahead =>
      intro p hp
      simp only [State.after, hdrop] at hp
      rcases List.mem_append.mp hp with hp | hp
      · exact hok.ahead p hp
      · obtain ⟨send, hsend, rfl⟩ := List.mem_map.mp hp
        obtain ⟨t, ht, hkey, hfind⟩ := hticket send hsend
        exact ⟨List.prefix_rfl, t, hfind, hkey, ((hmay send hsend).2 t ht).2⟩
    case listed => exact hok.listed
    case sure =>
      intro hnone p hp
      simp only [State.after, hdrop] at hp
      rcases List.mem_append.mp hp with hp | hp
      · exact hok.sure hnone p hp
      · obtain ⟨send, hsend, rfl⟩ := List.mem_map.mp hp
        exact (hmay send hsend).1.2.resolve_left fun h => h hnone
    case running =>
      intro p hp
      simp only [State.after, hdrop] at hp
      rcases List.mem_append.mp hp with hp | hp
      · exact hok.running p hp
      · obtain ⟨send, hsend, rfl⟩ := List.mem_map.mp hp
        exact (hmay send hsend).1.1
  rw [onBroker_apply]
  revert hafter
  rcases Tos.drain A H s.world with ⟨f | report, w⟩
  · exact fun hafter => hafter
  · exact fun hafter => hafter

theorem acks_named {proven : List (String × String × OrderState)} {acks : List Ack} :
    ∀ i ∈ acks.map (ackItem venue proven), Named i := by
  intro i hi
  obtain ⟨a, -, rfl⟩ := List.mem_map.mp hi
  exact named_ack a

theorem restoreIf_ok {c : Bool} :
    Ensures venue (State.Ok venue) (restoreIf A venue c) fun _ => State.Ok venue := by
  cases c
  · exact Triple.pure fun _ h => h
  · exact restore_ensures

theorem reconcileDrain_ok {event : Option VenueReconcile} :
    Ensures venue (State.Ok venue) (reconcileDrain A H digest disk venue event) fun _ => State.Ok venue := by
  cases event with
  | none => exact Triple.pure fun _ h => h
  | some event => exact reconcile_ok.bind fun written => Triple.pure fun _ h => h

theorem drainQueued_ok {collected : Report} {written : List Obj} {waiting : List (String × String)} :
    Ensures venue (Written venue) (drainQueued A H digest disk venue collected written waiting)
      fun _ => State.Ok venue := by
  refine drain_ok.bind fun report => (append_ok acks_named).bind fun acked => haltUnproven_ok.bind fun halt => ?_
  refine restoreIf_ok.bind fun _ => reconcileDrain_ok.bind fun drained => get_ensures.bind fun t => ?_
  exact Triple.pure fun _ h => h.2

theorem mirrorTodo_ok {collected : Report} {orders : List Order} {cover : Classified} {now : Stamp} :
    Ensures venue (State.Fresh venue) (mirrorTodo A sha256 H digest disk venue collected orders cover now)
      fun _ => State.Ok venue := by
  refine get_ensures.bind fun t => (lift_ensures fun _ h => h.2.1).bind fun holdings => ?_
  refine (mirrorBatch_netted.pre fun _ h => h.2).bind fun batch => ?_
  intro s hs
  refine post_bind.mpr ?_
  change Post _ _ ((lift _ >>= _ : S Report) s)
  refine post_bind.mpr (Post.lift (fun items hitems => ?_) fun _ _ => hs.1)
  have hbatch : batchItems venue orders now cover.refused batch (s.world.broker.queue.map (·.venueOrderId)) =
      .ok items := except_mapError_eq_ok.mp hitems
  refine post_bind.mpr ((writeAhead_written hbatch hs).weaken (fun written s' h => ?_) fun _ _ h => h)
  exact drainQueued_ok s' h

theorem preflighted_fresh : Ensures venue (State.Fresh venue) (preflighted A H)
    fun r s => s.Ok venue ∧ (r = none → s.Fresh venue) := by
  refine get_ensures.bind fun t => Triple.ite (fun _ => Triple.pure fun _ h => ⟨h.2.1, fun _ => h.2⟩) fun _ => ?_
  refine Ensures.pre (P := State.Fresh venue) ?_ fun _ h => h.2
  refine attempt_ensures (E := State.Ok venue) (read_fresh preflight_line preflight_moves) (fun _ => ?_) fun f => ?_
  · exact Triple.pure fun _ h => ⟨h.1, fun _ => h⟩
  · refine Triple.ite (fun _ => ?_) fun _ => fail_ensures fun _ h => h
    exact Triple.pure fun _ h => ⟨h, fun h => absurd h (Option.some_ne_none _)⟩

theorem refusals_named {orders : List Order} {now : Stamp} {refused : List (String × String)}
    {items : List (Obj × String)} (h : refused.mapM (refusal venue orders now) = .ok items) :
    ∀ i ∈ items, Named i := by
  intro i hi
  obtain ⟨r, -, hr⟩ := forall₂_right (mapM_ok h) i hi
  exact (refusal_named hr).1

theorem mirrorOrders_ok {collected : Report} {orders : List Order} {mayWait : Bool} :
    Ensures venue (State.Fresh venue) (mirrorOrders A sha256 H digest disk venue collected orders mayWait)
      fun _ => State.Ok venue := by
  refine now_fresh.bind fun now => get_ensures.bind fun t => ?_
  refine (lift_ensures fun _ h => h.2.1).bind fun cover => ?_
  refine Ensures.pre (P := State.Fresh venue) ?_ fun _ h => h.2
  refine Triple.ite (fun _ => ?_) fun _ => preflighted_fresh.bind fun deferred => ?_
  · intro s hs
    refine post_bind.mpr (Post.lift (fun items hitems => ?_) fun _ _ => hs.1)
    have hnamed := refusals_named (except_mapError_eq_ok.mp hitems)
    exact (append_ok hnamed).returning s hs.1
  · cases deferred with
    | some f => exact Triple.pure fun _ h => h.1
    | none => exact mirrorTodo_ok.pre fun _ h => h.2 rfl

/-! ## The calls -/

section Calls

variable (hnow : ∀ n event, H.now n ≠ .error (.unreadable event))
  (hable : ∀ n event, H.canReadFills n ≠ .error (.unreadable event))

include hnow hable

theorem runMirror_ok {orders : List Order} {mayWait : Bool} :
    Ensures venue (State.Ok venue) (runMirror A sha256 H digest disk venue orders mayWait)
      fun _ => State.Ok venue := by
  refine (collect_collected hnow hable).bind fun collected => ?_
  refine Triple.ite (fun _ => Triple.pure fun _ h => h.1) fun hdeferred => ?_
  have hnone : collected.deferred = none := Option.not_isSome_iff_eq_none.mp hdeferred
  refine Ensures.pre (P := State.Fresh venue) ?_ fun _ h => h.2 hnone
  refine get_ensures.bind fun t => Triple.ite (fun _ => Triple.pure fun _ h => h.2.1) fun _ => ?_
  exact mirrorOrders_ok.pre fun _ h => h.2

theorem collectOnly_ok : Ensures venue (State.Ok venue) (collectOnly A H digest disk venue)
    fun _ => State.Ok venue :=
  (collect_collected hnow hable).post fun _ _ h => h.1

end Calls

theorem cancelTicket_ok {key : String} :
    Ensures venue (State.Ok venue) (cancelTicket A H disk venue key) fun _ => State.Ok venue := by
  refine restore_ensures.bind fun _ => get_ensures.bind fun t => ?_
  refine (cancel_ok.pre fun _ h => h.2).bind fun ack => ?_
  split
  · refine Triple.ite (fun _ => ?_) fun _ => Triple.pure fun _ h => h
    exact (append_ok (named_singleton (named_cancel _ key))).bind fun _ => Triple.pure fun _ h => h
  · exact Triple.pure fun _ h => h

theorem extend_ok {events : List Event} (hevents : ∀ e ∈ events, Filed venue e) :
    Ensures venue (State.Ok venue) (extend A disk events) fun _ => State.Ok venue := by
  intro s hs
  have hcommitted : ∀ {s' : State}, Kept s s' → Committed A events s.ledger s'.ledger → s'.Ok venue := by
    intro s' hkept h
    obtain ⟨hl, hgrows⟩ := h.grows hs.ledger hevents
    exact hs.booked hkept hl hgrows
  refine (extend_spec s).weaken (fun _ _ h => hcommitted h.1 h.2) fun _ s' h => ?_
  obtain ⟨hkept, hsame | h⟩ := h
  · exact hs.booked hkept (hsame ▸ hs.ledger) (hsame ▸ .refl _)
  · exact hcommitted hkept h

theorem clearedEvent_filed {now : Stamp} {reason account : String} {seq : Int} {e : Event}
    (h : clearedEvent venue now reason seq account = .ok e) : Filed venue e := by
  simp only [clearedEvent, bind_eq_ok] at h
  obtain ⟨aware, -, time, -, h⟩ := h
  have hcommand : e.commandId = some s!"halt-cleared:{venue}:{account}:{seq}" := by
    rw [makeEvent_fields h]
  intro suffix hsuffix
  rw [hcommand] at hsuffix
  have hhead := congrArg (fun c : String => c.toList.head?) (Option.some.inj hsuffix)
  simp [commandOf, String.toList_append, toString] at hhead

theorem clearHalt_ok {reason : String} :
    Ensures venue (State.Ok venue) (clearHalt A H disk venue reason) fun _ => State.Ok venue := by
  refine (lift_ensures fun _ h => h).bind fun _ => get_ensures.bind fun t => ?_
  refine Ensures.pre (P := State.Ok venue) ?_ fun _ h => h.2
  refine (lift_ensures fun _ h => h).bind fun _ => ?_
  split
  · exact lift_ensures fun _ h => h
  · refine (lift_ensures fun _ h => h).bind fun _ => now_ok.bind fun now => ?_
    intro s hs
    refine post_bind.mpr (Post.lift (fun events hevents => ?_) fun _ _ => hs)
    have hfiled : ∀ e ∈ events, Filed venue e := by
      intro e he
      obtain ⟨account, -, h⟩ := forall₂_right (mapM_ok (except_mapError_eq_ok.mp hevents)) e he
      exact clearedEvent_filed h
    exact (extend_ok hfiled).returning s hs

/-! ## Histories -/

theorem foreign_filed {e : Event} (h : foreign venue e = true) : Filed venue e := by
  intro suffix hsuffix
  have hpre : (commandOf venue "").toList <+: (commandOf venue suffix).toList := by
    simp [commandOf, String.toList_append]
  simp [foreign, hsuffix, List.isPrefixOf_iff_prefix.mpr hpre] at h

theorem State.Ok.start {mirrored : List String} : (State.start venue mirrored).Ok venue := by
  constructor
  case ledger =>
    refine ⟨fun key t ht => ?_, .new, ?_, ?_⟩
    · simp [State.start, Ledger.opened, Ledger.mirror, Ledger.stateOf, AccountState.new, MirrorState.new] at ht
    · simp [State.start, Ledger.opened]
    · simp [State.start, Ledger.opened]
  case venue_eq => rfl
  case lined => exact ⟨List.nodup_nil, by simp [State.start, World.start, World.desk, Broker.new]⟩
  case placed => rfl
  case once => exact List.nodup_nil
  case ahead => simp [State.start]
  case listed => simp [State.start]
  case sure => simp [State.start]
  case running => simp [State.start]

theorem restarted_ok {halted connected : Bool} {s : State} (hs : s.Ok venue) :
    (restarted venue halted connected s).Ok venue := by
  constructor
  case ledger => exact hs.ledger
  case venue_eq => rfl
  case lined => exact ⟨List.nodup_nil, by simp [restarted, World.desk, Broker.new]⟩
  case placed => exact hs.placed
  case once => exact hs.once
  case ahead => exact hs.ahead
  case listed => exact hs.listed
  case sure => exact hs.sure
  case running => exact hs.running

theorem Ensures.keeps {p : S α} (h : Ensures venue (State.Ok venue) p fun _ => State.Ok venue) {s : State}
    (hs : s.Ok venue) : (p s).2.Ok venue := Post.reached (h s hs)

theorem exec_ok {O : Outside} {act : Act} {s : State} (hs : s.Ok venue) :
    ((act.exec A sha256 digest disk venue O) s).2.Ok venue := by
  cases act with
  | run orders mayWait =>
      exact Ensures.keeps (Ensures.returning (runMirror_ok O.now_plain O.canReadFills_plain)) hs
  | collect => exact Ensures.keeps (Ensures.returning (collectOnly_ok O.now_plain O.canReadFills_plain)) hs
  | cancel key => exact Ensures.keeps (Ensures.returning cancelTicket_ok) hs
  | clearHalt reason => exact Ensures.keeps (Ensures.returning (@clearHalt_ok A O.toHost disk venue reason)) hs
  | restart halted connected => exact restarted_ok hs
  | elsewhere events =>
      refine Ensures.keeps (Triple.ite (fun hforeign => ?_) fun _ => Triple.pure fun _ h => h) hs
      refine Ensures.returning (extend_ok fun e he => foreign_filed ?_)
      exact List.all_eq_true.mp hforeign e he

theorem history_ok (O : Outside) (acts : List Act) {s : State} (hs : s.Ok venue) :
    (history A sha256 digest disk venue O acts s).Ok venue := by
  induction acts generalizing s with
  | nil => exact hs
  | cons act acts ih => exact ih (exec_ok hs)

theorem State.Ok.queued {s : State} (h : s.Ok venue) {p : Passed} (hp : p ∈ s.passed) {t : Ticket}
    (ht : p.ticket = some t) {a : Allocated} (ha : a ∈ t.allocations) :
    (s.ledger.mirror venue).queuedOrders.get a.strategyOrderId = some p.key := by
  obtain ⟨hpre, u, hu, hkey, e, he, haccount, q, hq, hqueued⟩ := h.ahead p hp
  cases ht.symm.trans hu
  obtain ⟨hticket, hallocations⟩ := queued_ok hqueued
  obtain ⟨c, hc, hcid⟩ := hallocations a ha
  obtain ⟨found, hfound, hfoundq⟩ := h.ledger.recorded e (hpre.subset he) haccount q hq
  rw [← hcid, h.ledger.owned _ found hfound c (hfoundq ▸ hc), hticket, hkey]

theorem State.Ok.same_key {s : State} (h : s.Ok venue) {p p' : Passed} (hp : p ∈ s.passed)
    (hp' : p' ∈ s.passed) {t t' : Ticket} (ht : p.ticket = some t) (ht' : p'.ticket = some t')
    {a b : Allocated} (ha : a ∈ t.allocations) (hb : b ∈ t'.allocations)
    (hid : a.strategyOrderId = b.strategyOrderId) : p.key = p'.key := by
  have hown := h.queued hp ht ha
  rw [hid, h.queued hp' ht' hb] at hown
  exact (Option.some.inj hown).symm

end TradeEngine.Tos.Session
