import TradeEngine.Tos.Broker
import TradeEngine.Tos.Cover

/-!
# The mirror session

The appends around one broker process: what the venue filled is recorded first, the orders it may take
are written ahead and then sent, and what came of each send is recorded after. An append is atomic and
a repeated command id replays its event; how each append ends is the disk's word. A process that dies
leaves the ledger and the sends, and the next one starts with neither a key nor a queue.
-/

namespace TradeEngine.Tos.Session

open Lib

/-! ## The ledger -/

/-- The ledger as committed: its events in order, and the folded state of each account with events. -/
structure Ledger where
  rows : List Event
  states : States

def accountFor (venue : String) : String := mirrorAccountPrefix ++ venue

namespace Ledger

variable (A : Arith)

def opened : Ledger := ⟨[], .empty⟩

def stateOf (l : Ledger) (account : String) : AccountState := (l.states.get account).getD (.new account)

def mirror (l : Ledger) (venue : String) : MirrorState := (l.stateOf (accountFor venue)).mirror

/-- `halted_venues`: the halt is per venue, not per account. -/
def halted (l : Ledger) : List String := l.states.entries.flatMap (·.2.haltedVenues)

def stored (l : Ledger) (command : Option String) : Option Event :=
  command.bind fun c => l.rows.find? (·.commandId = some c)

/-- One event of a transaction: a command id the ledger has replays its event. -/
def write (acc : Ledger × List Obj) (e : Event) : R (Ledger × List Obj) :=
  match acc.1.stored e.commandId with
  | some row => pure (acc.1, acc.2 ++ [row.payload])
  | none => do
    let row ← makeEvent { e.toEventFields with seq := some (acc.1.rows.length + 1) }
    let state ← applyEvent A (acc.1.stateOf row.account) row
    pure (⟨acc.1.rows ++ [row], acc.1.states.put row.account state⟩, acc.2 ++ [row.payload])

end Ledger

/-- How an append ends: with the fold's word, with an error and nothing written, or with an error
after the commit. -/
inductive Ending where
  | commits
  | fails (f : Fault)
  | unreported (f : Fault)

abbrev Disk := Nat → Ending

/-! ## The state -/

/-- One order placed: its ticket in the queue it left, and the ledger, the tickets the run started with
and the reconciles it had recorded when it was placed. -/
structure Passed where
  key : String
  ticket : Option Ticket
  ledger : Ledger
  earlier : List String
  checks : List VenueReconcile

/-- The ledger and the broker process, with the appends made and the orders placed so far. `earlier` and
`checks` are the current run's; `swallowed` has every drift that was replayed after its halt was
lifted. -/
structure State where
  ledger : Ledger
  world : World
  appends : Nat
  passed : List Passed
  earlier : List String
  checks : List VenueReconcile
  swallowed : List VenueReconcile

abbrev S (α : Type) := Prog Fault State α

def get : S State := Prog.get

def lift {α : Type} (x : R α) : S α := Prog.lift (x.mapError .ofErr)

def onBroker {α : Type} (p : M α) : S α := fun s =>
  let r := p s.world
  let placed := r.2.sends.drop s.world.sends.length
  (r.1, { s with
    world := r.2
    passed := s.passed ++ placed.map fun send =>
      ⟨send.key, s.world.broker.queue.find? (·.venueOrderId = send.key), s.ledger, s.earlier, s.checks⟩ })

variable (A : Arith) (sha256 : String → String) (H : Host) (digest : VenueReconcile → String) (disk : Disk)
  (venue : String)

/-! ## Appends -/

def kindOf : Obj → R EventKind
  | .mQueued _ => pure .mirrorQueued
  | .mRefused _ => pure .mirrorRefused
  | .mAck _ => pure .mirrorAck
  | .mFill _ => pure .mirrorFill
  | .reconcile _ => pure .venueReconcile
  | o => err .key o.tag

def commandOf (venue suffix : String) : String := s!"mirror:{venue}:" ++ suffix

def utc (t : DateTime) : R DateTime :=
  match t.toUtc with
  | some u => pure u
  | none => err .overflow "date value out of range"

def eventOf (venue : String) (now : Stamp) (item : Obj × String) : R Event := do
  let account ← mirrorAccount venue
  let kind ← kindOf item.1
  let aware ← requireAware now .payload "Event.ts_utc must be timezone-aware UTC datetime (I7)"
  makeEvent
    { account := account
      kind := kind
      payload := item.1
      tsUtc := ← utc aware
      commandId := some (commandOf venue item.2)
      schemaVersion := schemaVersion
      seq := none }

/-- One transaction: all or nothing. -/
def extend (events : List Event) : S (List Obj) := fun s =>
  let s := { s with appends := s.appends + 1 }
  match disk (s.appends - 1), events.foldlM (Ledger.write A) (s.ledger, []) with
  | .fails f, _ => (.error f, s)
  | _, .error e => (.error (.ofErr e), s)
  | .commits, .ok written => (.ok written.2, { s with ledger := written.1 })
  | .unreported f, .ok written => (.error f, { s with ledger := written.1 })

def append (items : List (Obj × String)) : S (List Obj) :=
  if items = [] then pure []
  else do
    let now ← onBroker (ask H.now)
    let events ← lift (items.mapM (eventOf venue now))
    extend A disk events

def reconcileSuffix (event : VenueReconcile) (phase : String) : String :=
  s!"reconcile:{phase}:{event.asOf.iso}:{digest event}"

/-- A drift that will only be replayed, at a venue that no account has halted now. -/
def Swallows (event : VenueReconcile) (phase : String) (l : Ledger) : Prop :=
  event.reconciled = false ∧ (l.stored (commandOf venue (reconcileSuffix digest event phase))).isSome = true ∧
    venue ∉ l.halted

instance (event : VenueReconcile) (phase : String) (l : Ledger) :
    Decidable (Swallows digest venue event phase l) := by
  unfold Swallows
  infer_instance

def noted (event : VenueReconcile) (phase : String) (s : State) : State :=
  { s with
    checks := s.checks ++ [event]
    swallowed := if Swallows digest venue event phase s.ledger then s.swallowed ++ [event] else s.swallowed }

/-- Keyed by the outcome too: a drift found at the instant of an earlier clean reconcile is its own
event. -/
def reconcile (event : VenueReconcile) (phase : String) : S VenueReconcile := do
  Prog.modify (noted digest venue event phase)
  match ← append A H disk venue [(.reconcile event, reconcileSuffix digest event phase)] with
  | [.reconcile written] => pure written
  | _ => lift (err .value "expected one written reconcile")

/-! ## The report -/

structure Report where
  fills : List MirrorFill
  closes : List MirrorAck
  reconcile : Option VenueReconcile
  refused : List MirrorRefused
  queued : List MirrorQueued
  acks : List MirrorAck
  drainReconcile : Option VenueReconcile
  halted : Bool
  deferred : Option String
  waiting : List (String × String)

def Report.empty : Report := ⟨[], [], none, [], [], [], none, false, none, []⟩

def fill? : Obj → Option MirrorFill
  | .mFill f => some f
  | _ => none

def ack? : Obj → Option MirrorAck
  | .mAck a => some a
  | _ => none

def refused? : Obj → Option MirrorRefused
  | .mRefused r => some r
  | _ => none

def queued? : Obj → Option MirrorQueued
  | .mQueued q => some q
  | _ => none

def deferredWhy (doing : String) (f : Fault) (recorded : String) : String :=
  let kept := if recorded ≠ "" then recorded ++ "; " else "nothing was sent or recorded; "
  s!"the venue could not be asked while {doing} ({f.text}); {kept}the next run asks again"

/-! ## Collecting -/

def symbolsOf (units : List (MirrorQueued × Money)) : R (List String) := do
  let books ← units.mapM fun u => TradeEngine.ticketContracts A u.1 u.2
  let symbols ← (books.flatMap fun b => b.entries.map (·.1)).mapM Contract.symbol
  pure (sortTexts symbols.dedup)

def unproven (m : MirrorState) : List MirrorTicketState := m.openTickets.filter (·.venueOrderId.isNone)

/-- Halt the venue when an open ticket has no proven order id: its fills cannot be read back. -/
def haltUnproven (phase : String) : S (Option VenueReconcile) := do
  let s ← get
  let tickets := unproven (s.ledger.mirror venue)
  if tickets.length = 0 then pure none
  else do
    let names ← lift (symbolsOf A (tickets.map fun t => (t.queued, t.queued.quantity)))
    let now ← onBroker (ask H.now)
    let keys := ", ".intercalate (tickets.map (·.queued.ticketKey))
    let halt ← lift (venueReconcile venue now false names (some
      (s!"no proven venue Order ID for open ticket(s) {keys}" ++
        ": their fills cannot be read back; venue halted (I5)")))
    some <$> reconcile A H digest disk venue halt s!"unproven:{phase}"

def restore : S Unit := do
  let s ← get
  onBroker (Tos.restore A (s.ledger.mirror venue) s.ledger.halted)

def restoreIf (c : Bool) : S Unit := if c then restore A venue else pure ()

/-- The text of a refusal of the ledger's fold. -/
def foldRefusal : Fault → Option String
  | .refusal e => if e.kind = .fold ∨ e.kind = .fillMismatch ∨ e.kind = .duplicateFill then some e.msg else none
  | _ => none

def filledTicket (m : MirrorState) (f : MirrorFill) : R (MirrorQueued × Money) :=
  match m.tickets.get f.ticketKey with
  | some t => pure (t.queued, f.filled)
  | none => err .key (pyRepr f.ticketKey)

/-- Fills the mirror cannot book: the venue halts. -/
def cannotBook (fills : List MirrorFill) (why : String) : S Report := do
  let s ← get
  let units ← lift (fills.mapM (filledTicket (s.ledger.mirror venue)))
  let found ← lift (symbolsOf A units)
  let names := if found = [] then [venue] else found
  let now ← onBroker (ask H.now)
  let halt ← lift (venueReconcile venue now false names
    (some s!"the mirror cannot book the venue's fills ({why}); venue halted"))
  let written ← reconcile A H digest disk venue halt "collect"
  restore A venue
  pure { Report.empty with reconcile := some written, halted := true }

def fillItem (f : MirrorFill) : Obj × String := (.mFill f, s!"fill:{f.ticketKey}:{f.filled.canon}")

def closeItem (a : MirrorAck) : Obj × String :=
  (.mAck a, s!"book:{a.ticketKey}:" ++ a.bookStatus.elim "" OrderState.value)

def closing (written : List Obj) : S Report := do
  let report := { Report.empty with fills := written.filterMap fill?, closes := written.filterMap ack? }
  let _ ← haltUnproven A H digest disk venue "collect"
  restore A venue
  match ← Prog.attempt (onBroker (reconcileNow A H true)) with
  | .error f =>
    if f.unavailable then do
      let s ← get
      pure { report with
        halted := s.world.broker.halted
        deferred := some (deferredWhy "reconciling" f ("the fills and closes listed are recorded, only" ++
          " the closing reconcile was not made")) }
    else Prog.fail f
  | .ok event => do
    let check ← reconcile A H digest disk venue event "collect"
    let s ← get
    pure { report with reconcile := some check, halted := s.world.broker.halted }

/-- A run starts with the tickets it finds, and no reconcile. -/
def begun (s : State) : State :=
  { s with earlier := (s.ledger.mirror venue).tickets.entries.map (·.1), checks := [] }

def collect : S Report := do
  Prog.modify (begun venue)
  let s ← get
  match ← Prog.attempt (onBroker (collectFills A H (s.ledger.mirror venue))) with
  | .error (.unreadable event) => do
    let written ← reconcile A H digest disk venue event "collect"
    pure { Report.empty with reconcile := some written, halted := true }
  | .error f =>
    if f.unavailable then do
      let s ← get
      pure { Report.empty with
        halted := s.world.broker.halted
        deferred := some (deferredWhy "collecting fills" f "") }
    else Prog.fail f
  | .ok collection =>
    match ← Prog.attempt (append A H disk venue (collection.fills.map fillItem ++ collection.closes.map closeItem)) with
    | .error f =>
      match foldRefusal f with
      | some why => cannotBook A H digest disk venue collection.fills why
      | none => Prog.fail f
    | .ok written => closing A H digest disk venue written

/-! ## Sending -/

def orderOf (o : Order) : NOrder :=
  ⟨o.orderId, o.accountId, .known o.instrument, o.orderType, o.side, o.quantity, o.tif, o.limitPrice⟩

def candidates (m : MirrorState) : List Order → List String → List Order
  | [], _ => []
  | o :: rest, seen =>
    if o.orderId ∈ seen || m.handled o.orderId then candidates m rest seen
    else o :: candidates m rest (seen ++ [o.orderId])

def accountOf (orders : List Order) (orderId : String) : R String :=
  match orders.find? (·.orderId = orderId) with
  | some o => pure o.accountId
  | none => err .key (pyRepr orderId)

def refusedAt (venue orderId account reason : String) (now : Stamp) : R (Obj × String) := do
  let t ← requireAware now .payload "MirrorRefused.at must be timezone-aware UTC datetime (I7)"
  pure (.mRefused ⟨venue, orderId, account, reason, t⟩, s!"refused:{orderId}")

def refusal (venue : String) (orders : List Order) (now : Stamp) (r : String × String) : R (Obj × String) := do
  let account ← accountOf orders r.1
  refusedAt venue r.1 account r.2 now

def mirrorAllocation (a : Allocated) : R MirrorAllocation := do
  refuseIf (a.strategyOrderId = "") .payload "MirrorAllocation.strategy_order_id must be non-empty"
  refuseIf (a.accountId = "") .payload "MirrorAllocation.strategy_account must be non-empty"
  if h : 0 < a.quantity.mantissa ∧ a.quantity.isIntegral = true then
    pure ⟨a.strategyOrderId, a.accountId, a.quantity, h.1, h.2⟩
  else
    err .payload s!"MirrorAllocation.quantity must be a positive whole number of contracts, got {a.quantity.canon} (I5)"

def queued (venue : String) (t : Ticket) : R MirrorQueued := do
  let allocations ← t.allocations.mapM mirrorAllocation
  pure
    { venue := venue
      ticketKey := t.venueOrderId
      instrument := t.instrument
      side := t.side
      quantity := t.quantity
      orderType := t.orderType
      limitPrice := t.limitPrice
      tif := t.tif
      allocations := allocations
      atTime := t.submittedAt }

/-- A ticket of a batch: queued, or its orders refused where this process used its key before and the
ledger never recorded it. -/
def ticketItems (venue : String) (now : Stamp) (queuedKeys : List String) (t : Ticket) : R (List (Obj × String)) :=
  if t.venueOrderId ∈ queuedKeys then do
    let q ← queued venue t
    pure [(.mQueued q, s!"queued:{t.venueOrderId}")]
  else
    t.allocations.mapM fun a => refusedAt venue a.strategyOrderId a.accountId
      (s!"ticket {t.venueOrderId} was already used by this broker process and never recorded; refused (I3)" ++
        " - restart the broker from the ledger") now

/-- The items written ahead of a drain. -/
def batchItems (venue : String) (orders : List Order) (now : Stamp) (coverRefused : List (String × String))
    (batch : Batch) (queuedKeys : List String) : R (List (Obj × String)) := do
  let refusals ← (coverRefused ++ batch.refused).mapM (refusal venue orders now)
  let tickets ← batch.venueOrders.mapM (ticketItems venue now queuedKeys)
  pure (refusals ++ tickets.flatten)

def ackItem (venue : String) (proven : List (String × String × OrderState)) (a : Ack) : Obj × String :=
  let found := (proven.find? (·.1 = a.id)).map (·.2)
  let message := if a.message ≠ "" then a.message else a.status.value
  (.mAck ⟨venue, a.id, a.status, message, a.stamp, found.map (·.1), found.map (·.2)⟩, s!"ack:{a.id}")

/-- Never send what the ledger did not record. -/
def dropQueue : S Unit := do
  let s ← get
  Prog.forEach (fun t : Ticket => do
    let _ ← onBroker (Tos.cancel A H t.venueOrderId)
    pure ()) s.world.broker.queue

/-- The write-ahead append; nothing stays queued where it failed. -/
def writeAhead (items : List (Obj × String)) : S (List Obj) := do
  match ← Prog.attempt (append A H disk venue items) with
  | .ok written => pure written
  | .error f =>
    if f.isFatal then Prog.fail f
    else do
      dropQueue A H
      Prog.fail f

def reconcileDrain : Option VenueReconcile → S (Option VenueReconcile)
  | some event => some <$> reconcile A H digest disk venue event "drain"
  | none => pure none

/-- The queue goes out, and what came of it is recorded. -/
def drainQueued (collected : Report) (written : List Obj) (waiting : List (String × String)) : S Report := do
  let report ← onBroker (Tos.drain A H)
  let acked ← append A H disk venue (report.acks.map (ackItem venue report.proven))
  let halt ← haltUnproven A H digest disk venue "drain"
  restoreIf A venue halt.isSome
  let drained ← reconcileDrain A H digest disk venue report.reconcile
  let s ← get
  pure { collected with
    refused := written.filterMap refused?
    queued := written.filterMap queued?
    acks := acked.filterMap ack?
    drainReconcile := drained
    halted := s.world.broker.halted
    waiting := waiting }

/-- The orders that may go now are netted, written ahead and sent. -/
def mirrorTodo (collected : Report) (orders : List Order) (cover : Classified) (now : Stamp) : S Report := do
  let s ← get
  let holdings ← lift ((s.ledger.mirror venue).exposure A)
  let batch ← onBroker (mirrorBatch A sha256 H (cover.todo.map orderOf) holdings)
  let s ← get
  let items ← lift (batchItems venue orders now cover.refused batch
    (s.world.broker.queue.map (·.venueOrderId)))
  let written ← writeAhead A H disk venue items
  drainQueued A H digest disk venue collected written cover.waiting

/-- Read the venue before the write-ahead: one that cannot be asked defers the whole batch. -/
def preflighted : S (Option Fault) := do
  let s ← get
  if s.world.broker.halted then pure none
  else do
    match ← Prog.attempt (onBroker (preflight A H)) with
    | .ok () => pure none
    | .error f => if f.unavailable then pure (some f) else Prog.fail f

/-- What may be sent of the orders no session handled. -/
def mirrorOrders (collected : Report) (orders : List Order) (mayWait : Bool) : S Report := do
  let now ← onBroker (ask H.now)
  let s ← get
  let cover ← lift (classifyCover A (s.ledger.mirror venue) orders mayWait)
  if cover.todo = [] then do
    let items ← lift (cover.refused.mapM (refusal venue orders now))
    let written ← append A H disk venue items
    pure { collected with refused := written.filterMap refused?, waiting := cover.waiting }
  else do
    match ← preflighted A H with
    | some f =>
      pure { collected with
        deferred := some (deferredWhy s!"reading before sending {cover.todo.length} order(s)" f "")
        waiting := cover.waiting }
    | none => mirrorTodo A sha256 H digest disk venue collected orders cover now

def runMirror (orders : List Order) (mayWait : Bool) : S Report := do
  let collected ← collect A H digest disk venue
  if collected.deferred.isSome then pure collected
  else do
    let s ← get
    let found := candidates (s.ledger.mirror venue) orders []
    if found = [] then pure collected
    else mirrorOrders A sha256 H digest disk venue collected found mayWait

def collectOnly : S Report := collect A H digest disk venue

/-- Cancel one resting ticket at the venue, and record it where the venue confirmed. -/
def cancelTicket (key : String) : S Ack := do
  restore A venue
  let s ← get
  let orderId := (s.world.broker.sent.get key).map (·.orderId)
  let ack ← onBroker (Tos.cancel A H key)
  match orderId with
  | some id =>
    if ack.status = .accepted then do
      let message := if ack.message ≠ "" then ack.message else "cancelled"
      let _ ← append A H disk venue [(.mAck ⟨venue, key, .accepted, message, ack.stamp, some id,
        some .cancelled⟩, s!"cancel:{key}")]
      pure ack
    else pure ack
  | none => pure ack

/-! ## The operator -/

def reconcileOf (e : Event) : Option (VenueReconcile × Int) :=
  match e.payload with
  | .reconcile n => if n.venue = venue then some (n, e.seq.getD 0) else none
  | _ => none

def clearedEvent (now : Stamp) (reason : String) (seq : Int) (account : String) : R Event := do
  let aware ← requireAware now .payload "VenueHaltCleared.at must be timezone-aware UTC datetime (I7)"
  makeEvent
    { account := account
      kind := .venueHaltCleared
      payload := .haltCleared ⟨venue, aware, strip reason, seq⟩
      tsUtc := ← utc aware
      commandId := some s!"halt-cleared:{venue}:{account}:{seq}"
      schemaVersion := schemaVersion
      seq := none }

/-- Lift the venue's halt on the operator's word, once its newest reconcile is clean. -/
def clearHalt (reason : String) : S (List String) := do
  lift (refuseIf (strip reason = "") .value "a halt is lifted only with the operator's reason (I11)")
  let s ← get
  let holders := sortTexts ((s.ledger.states.entries.filter fun e => e.2.haltedVenues.contains venue).map (·.1))
  lift (refuseIf (holders = []) .value s!"venue {venue} is not halted")
  match (s.ledger.rows.filterMap (reconcileOf venue)).getLast? with
  | none => lift (err .value "max() arg is an empty sequence")
  | some (newest, seq) => do
    let drift := pyList newest.drift
    let note := newest.note.getD "None"
    lift (refuseIf (!newest.reconciled) .value
      (s!"venue {venue}'s newest reconcile ({newest.asOf.iso}) still drifts: {drift} ({note});" ++
        " fix it and collect again first"))
    let now ← onBroker (ask H.now)
    let events ← lift (holders.mapM (clearedEvent venue now reason seq))
    let _ ← extend A disk events
    pure holders

/-! ## Histories -/

/-- The host of a session. A venue is called unreadable by the broker, never by the clock or by the
transport. -/
structure Outside extends Host where
  now_plain : ∀ n event, now n ≠ .error (.unreadable event)
  canReadFills_plain : ∀ n event, canReadFills n ≠ .error (.unreadable event)

/-- What a history is made of: the calls of a session, a new broker process, and a transaction of
another writer. -/
inductive Act where
  | run (orders : List Order) (mayWait : Bool)
  | collect
  | cancel (key : String)
  | clearHalt (reason : String)
  | restart (halted connected : Bool)
  | elsewhere (events : List Event)

def restarted (halted connected : Bool) (s : State) : State :=
  { s with world := { s.world with
      broker := { Broker.new venue s.world.broker.mirrored halted with connected := connected } } }

/-- Another writer's event: of another account, and under no command id of the session's. -/
def foreign (e : Event) : Bool :=
  e.account ≠ accountFor venue && !(e.commandId.any fun c => (commandOf venue "").toList.isPrefixOf c.toList)

def Act.exec (O : Outside) : Act → S Unit
  | .run orders mayWait => do let _ ← runMirror A sha256 O.toHost digest disk venue orders mayWait
  | .collect => do let _ ← collectOnly A O.toHost digest disk venue
  | .cancel key => do let _ ← cancelTicket A O.toHost disk venue key
  | .clearHalt reason => do let _ ← Session.clearHalt A O.toHost disk venue reason
  | .restart halted connected => Prog.modify (restarted venue halted connected)
  | .elsewhere events => if events.all (foreign venue) then do let _ ← extend A disk events else pure ()

def history (O : Outside) (acts : List Act) (s : State) : State :=
  acts.foldl (fun s a => (a.exec A sha256 digest disk venue O s).2) s

/-- A venue that was never mirrored, on an empty ledger. -/
def State.start (mirrored : List String) : State :=
  ⟨.opened, .start venue mirrored false, 0, [], [], [], []⟩

end TradeEngine.Tos.Session
