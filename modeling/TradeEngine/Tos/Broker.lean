import TradeEngine.Lib.Program
import TradeEngine.Tos.Reconcile

/-!
# The mirror broker

The submit queue, the keys, the expected book, the sent tickets with their proven order ids, the
cancelled set and the sticky halt, and every transition that moves them. The host answers the clock
and the transport; what a call did to the broker before a refusal stays done.
-/

namespace TradeEngine.Tos

open Lib

/-! ## Host -/

inductive ExcClass where
  | refused
  | replay
  | unavailable
  | other
deriving DecidableEq, Repr

structure Raised where
  excClass : ExcClass
  name : String
  text : String

/-- Why a host call or a normalization did not answer. `raised` and `refusal` are what the broker may
catch, `fatal` never is; `unreadable` carries the drift event the host appends. -/
inductive Fault where
  | raised (r : Raised)
  | refusal (e : LErr)
  | fatal (e : LErr)
  | unreadable (event : VenueReconcile)

namespace Fault

def ofErr (e : LErr) : Fault := if e.kind = .host then .fatal e else .refusal e

def text : Fault → String
  | .raised r => r.text
  | .refusal e | .fatal e => e.msg
  | .unreadable event => event.note.getD "venue unreadable"

def unavailable : Fault → Bool
  | .raised r => r.excClass = .unavailable
  | _ => false

def isFatal : Fault → Bool
  | .fatal _ => true
  | _ => false

end Fault

abbrev X (α : Type) := Except Fault α

structure Ack where
  id : String
  status : AckStatus
  stamp : DateTime
  message : String

/-- A place result as the transport gave it, its texts stripped and upper-cased. -/
inductive PlaceRaw where
  | unreadable (repr : String)
  | result (status : String) (reason : Option String) (orderId : Option String) (bookStatus : String)
    (bookState : OrderState)

def placeResult : PlaceRaw → Verdict
  | .unreadable repr => (.pending, s!"unreadable transport result {repr}; awaiting reconcile")
  | .result status reason _ _ _ =>
    if status = "SENT" then (.pending, "sent; awaiting read-back")
    else if status = "DRY_RUN" then (.pending, "dry run: nothing sent; awaiting reconcile")
    else if status ∈ ["REFUSED", "REJECTED", "INELIGIBLE", "MISMATCH"] then
      let why := reason.getD status
      (.rejected, s!"venue refused: {why}")
    else
      let shown := pyRepr status
      (.pending, s!"unknown transport status {shown}; awaiting reconcile")

/-- The venue order id a SENT result proves. -/
def placedOrderId : PlaceRaw → Option (String × OrderState)
  | .unreadable _ => none
  | .result status _ orderId bookStatus bookState =>
    if status ≠ "SENT" ∨ bookStatus = "" ∨ bookStatus = "UNKNOWN" then none
    else (orderId.filter fun id => pyIsDigit id).map (·, bookState)

/-- `normalize_place_exception`: REJECTED if provably nothing was sent. -/
def placeException (r : Raised) : Verdict :=
  match r.excClass with
  | .refused => (.rejected, s!"transport refused before send: {r.text}")
  | .replay => (.pending, s!"idempotency replay: {r.text}; confirming by reconcile (I3)")
  | _ => (.pending, s!"transport error {r.name}: {r.text}; uncertain whether sent, awaiting reconcile")

inductive CancelRaw where
  | unreadable (repr : String)
  | result (status orderId : String) (note : Option String)

def cancelResult : CancelRaw → Verdict
  | .unreadable repr => (.pending, s!"unreadable cancel result {repr}; awaiting reconcile")
  | .result status orderId note =>
    if status = "CANCELED" then (.accepted, s!"cancelled: order {orderId} reads CANCELED")
    else
      let why := note.getD (if status ≠ "" then status else "no status")
      (.pending, s!"cancel not confirmed ({why}); awaiting reconcile")

/-- `normalize_cancel_exception`: REJECTED if provably nothing was clicked. -/
def cancelException (r : Raised) : Verdict :=
  match r.excClass with
  | .refused => (.rejected, s!"transport refused the cancel: {r.text}")
  | _ => (.pending, s!"cancel error {r.name}: {r.text}; uncertain whether cancelled, awaiting reconcile")

structure FillRow where
  orderId : String
  filled : Money
  avgPrice : Option Money
  state : OrderState
  digits : pyIsDigit orderId = true
  whole : filled.isIntegral = true
  nonneg : 0 ≤ filled.mantissa
  priced : 0 < filled.mantissa → avgPrice.any fun p => decide (0 < p.mantissa)
  unpriced : filled.mantissa = 0 → avgPrice = none
  fills : state = .filled → filled.mantissa ≠ 0

structure Spec where
  symbols : List String
  side : Side
  quantity : Money
  orderType : OrderType
  limitPrice : Option Money
  tif : Tif

/-- The host: what each of its calls, numbered in the order they are made, answers. A row that
cannot be read is a refusal in its place. -/
structure Host where
  now : Nat → X Stamp
  placeOrder : Nat → Spec → String → X PlaceRaw
  readPositions : Nat → X (List (R (Contract × Money)))
  readWorkingOrders : Nat → X (List (R Row))
  readOrderFills : Nat → X (List (R FillRow))
  cancelOrder : Nat → String → X CancelRaw
  canReadFills : Nat → X Bool
  canCancel : Nat → X Bool

/-! ## State -/

/-- One ticket a send proved a venue order id for, and the units still resting. -/
structure Sent where
  ticket : Ticket
  orderId : String
  resting : Money

structure Broker where
  venue : String
  mirrored : List String
  connected : Bool
  halted : Bool
  restored : Bool
  queue : List Ticket
  keys : List String
  expected : Book
  sent : OMap String Sent
  proven : OMap String (String × OrderState)
  preflightBook : Option (Stamp × Book)
  cancelled : List String

def Broker.new (venue : String) (mirrored : List String) (halted : Bool) : Broker :=
  { venue := venue, mirrored := mirrored, connected := false, halted := halted, restored := false,
    queue := [], keys := [], expected := .empty, sent := .empty, proven := .empty,
    preflightBook := none, cancelled := [] }

/-- One send, as the transport sees it, and whether the venue was halted then. -/
structure Send where
  key : String
  halted : Bool
deriving DecidableEq

structure World where
  broker : Broker
  tick : Nat
  sends : List Send

abbrev M (α : Type) := Prog Fault World α

def lift {α : Type} (x : R α) : M α := Prog.lift (x.mapError .ofErr)

def ask {α : Type} (f : Nat → X α) : M α := fun w => (f w.tick, { w with tick := w.tick + 1 })

def modify (f : Broker → Broker) : M Unit := .modify fun w => { w with broker := f w.broker }

def getBroker : M Broker := .gets (·.broker)

variable (A : Arith) (sha256 : String → String) (H : Host)

def requireConnected (what : String) : M Unit := do
  let b ← getBroker
  lift (refuseIf (!b.connected) .broker s!"{what} before connect; prove the venue first (I10)")

/-! ## Reads -/

def readPositions : M (List (Contract × Money)) := do
  let now ← ask H.now
  let rows ← ask H.readPositions
  lift (rows.mapM fun row => do
    let p ← row
    let _ ← requireAware now .value "as_of must be timezone-aware UTC datetime (I7)"
    pure p)

def readWorking : M (List Row) := do
  let rows ← ask H.readWorkingOrders
  lift (rows.mapM id)

def readFills : M (List FillRow) := do
  let rows ← ask H.readOrderFills
  lift (rows.mapM id)

def makeAck (id : String) (now : Stamp) (v : Verdict) : M Ack := do
  let t ← lift (requireAware now .value "timestamp must be timezone-aware UTC datetime (I7)")
  pure ⟨id, v.1, t, v.2⟩

def ack (t : Ticket) (status : AckStatus) (message : String) : M Ack := do
  let now ← ask H.now
  makeAck t.venueOrderId now (status, message)

def haltIf (c : Bool) : M Unit :=
  if c then modify fun b => { b with halted := true } else pure ()

/-- The venue halts, after the drift event was built. -/
def unreadableHalt {α : Type} (event : R VenueReconcile) : M α := do
  let e ← lift event
  modify fun b => { b with halted := true }
  .fail (.unreadable e)

/-! ## The expected book -/

/-- The ticket's signed contracts (`units`, or all) into a book, times `sign`. -/
def addTicket (book : Book) (t : Ticket) (sign : Int) (units : Option Money) : R Book := do
  let contracts ← ticketContracts A t.instrument t.side (units.getD t.quantity)
  contracts.entries.foldlM (fun b e => do b.add A e.1 (← Ops.mulI A e.2 sign)) book

/-- One contract's share leaves the expected book. -/
def takeOut (e : Contract × Money) : M Unit := do
  let b ← getBroker
  let book ← lift (do b.expected.add A e.1 (← Ops.mulI A e.2 (-1)) : R Book)
  modify fun b => { b with expected := book }

/-- The ticket's contracts (`units`, or all) leave the expected book, one at a time. -/
def unexpect (t : Ticket) (units : Option Money) : M Unit := do
  let contracts ← lift (ticketContracts A t.instrument t.side (units.getD t.quantity))
  Prog.forEach (takeOut A) contracts.entries

def unexpectIf (c : Bool) (t : Ticket) (units : Option Money) : M Unit :=
  if c then unexpect A t units else pure ()

/-! ## The mirror layer -/

/-- One ticket of a netted batch into the queue, unless its key was used before. -/
def enqueue (expected : Book) (t : Ticket) : M Book := do
  let b ← getBroker
  if t.venueOrderId ∈ b.keys then pure expected
  else do
    modify fun b => { b with keys := b.keys ++ [t.venueOrderId], queue := b.queue ++ [t] }
    lift (addTicket A expected t 1 none)

def enqueueAll : List Ticket → Book → M Book
  | [], expected => pure expected
  | t :: rest, expected => do enqueueAll rest (← enqueue A expected t)

def unrestoredBook (holdings : OMap (String × Contract) Money) (queue : List Ticket) : R Book := do
  let book ← holdings.entries.foldlM (fun b e => b.add A e.1.2 e.2) .empty
  queue.foldlM (fun b t => addTicket A b t 1 none) book

/-- Net a batch and queue its tickets. Never calls the transport. -/
def mirrorBatch (orders : List NOrder) (holdings : OMap (String × Contract) Money) : M Batch := do
  requireConnected "mirror_batch"
  let b ← getBroker
  if b.halted then
    pure ⟨[], orders.map fun o =>
      (o.orderId, s!"venue {b.venue} is halted by a reconcile drift; refused")⟩
  else do
    let now ← ask H.now
    let batch ← lift (netStrategyOrders A sha256 orders b.venue b.mirrored now holdings)
    let base ← lift (if b.restored then .ok b.expected else unrestoredBook A holdings b.queue)
    let expected ← enqueueAll A batch.venueOrders base
    modify fun b => { b with expected := expected }
    pure batch

def venueOrderOf (q : MirrorQueued) : R Ticket := do
  refuseIf (q.ticketKey = "") .value "venue_order_id must be non-empty"
  refuseIf (q.quantity.le .zero) .value s!"quantity must be positive, got {q.quantity.canon}"
  refuseIf (q.orderType = .market ∧ q.limitPrice.isSome) .value "MARKET order cannot have a limit_price"
  refuseIf (q.orderType = .limit ∧ q.limitPrice.isNone) .value "LIMIT order must have a limit_price"
  refuseIf (q.allocations = []) .value "VenueOrder must carry at least one strategy-order allocation"
  let allocated ← q.allocations.foldlM (fun t a => Ops.add A t a.quantity) Money.zero
  refuseIf (allocated.ne q.quantity) .value
    s!"VenueOrder allocations total {allocated.canon} but order quantity is {q.quantity.canon}"
  pure
    { venueOrderId := q.ticketKey
      instrument := q.instrument
      orderType := q.orderType
      side := q.side
      quantity := q.quantity
      submittedAt := q.atTime
      tif := q.tif
      limitPrice := q.limitPrice
      allocations := q.allocations.map fun a => ⟨a.strategyOrderId, a.strategyAccount, a.quantity⟩ }

def restoreSent (sent : OMap String Sent) (t : MirrorTicketState) : R (OMap String Sent) :=
  match t.venueOrderId with
  | none => pure sent
  | some orderId => do
    let ticket ← venueOrderOf A t.queued
    let resting ← t.remaining A
    pure (sent.put t.queued.ticketKey ⟨ticket, orderId, resting⟩)

/-- Load the venue's folded mirror: the fold, not this process, is the memory. -/
def restore (m : MirrorState) (haltedVenues : List String) : M Unit := do
  let b ← getBroker
  let venue := m.venue.getD b.venue
  lift (refuseIf (venue ≠ b.venue) .broker
    s!"cannot restore venue {venue}'s mirror into {b.venue} (I8)")
  lift (refuseIf (b.queue ≠ []) .broker "restore over an undrained queue; drain (or cancel) it first")
  haltIf (b.venue ∈ haltedVenues)
  let sent ← lift (m.openTickets.foldlM (restoreSent A) .empty)
  let cancelled := (m.tickets.entries.filter fun e => e.2.bookStatus == some .cancelled).map (·.1)
  modify fun b => { b with
    sent := sent
    restored := true
    keys := b.keys ++ m.tickets.entries.map (·.1)
    cancelled := b.cancelled ++ cancelled }
  let expected ← lift (m.expected A)
  modify fun b => { b with expected := expected }

/-! ## Fills -/

structure Collection where
  fills : List MirrorFill
  closes : List MirrorAck

/-- Why a row contradicts its ticket, or `none`. -/
def contradicts (t : MirrorTicketState) (row : FillRow) : Option String :=
  let quantity := t.queued.quantity
  let rowPrice := row.avgPrice.elim "None" Money.canon
  let price := t.avgPrice.elim "None" Money.canon
  if row.filled.lt t.filled || row.filled.gt quantity then
    some s!"order {row.orderId} reads filled {row.filled.canon}; the mirror has {t.filled.canon} of {quantity.canon}"
  else if row.state = .filled ∧ row.filled.ne quantity = true then
    some s!"order {row.orderId} reads FILLED at {row.filled.canon} of {quantity.canon}"
  else if row.filled.eqNum t.filled && row.filled.gt .zero && !(row.avgPrice == t.avgPrice) then
    some s!"order {row.orderId} reads filled {row.filled.canon} at {rowPrice}; the mirror booked it at {price}"
  else none

def ended : OrderState → Bool
  | .filled | .cancelled | .expired | .rejected => true
  | _ => false

/-- The increment a row proves, if it proves one. -/
def fillOf (venue : String) (now : Stamp) (t : MirrorTicketState) (row : FillRow) :
    R (List MirrorFill) :=
  if row.filled.gt t.filled then do
    let stamp ← requireAware now .payload "MirrorFill.at must be timezone-aware UTC datetime (I7)"
    match row.avgPrice with
    | some price => pure [⟨venue, t.queued.ticketKey, row.orderId, row.filled, price, stamp⟩]
    | none => err .payload "MirrorFill.avg_price must be a Decimal"
  else pure []

def closeOf (venue : String) (now : Stamp) (t : MirrorTicketState) (row : FillRow) :
    R (List MirrorAck) :=
  if ended row.state && !t.closed && !(t.bookStatus == some row.state) then do
    let stamp ← requireAware now .payload "MirrorAck.at must be timezone-aware UTC datetime (I7)"
    pure [{ venue := venue
            ticketKey := t.queued.ticketKey
            status := if row.state = .rejected then .rejected else .accepted
            message := s!"order book: order {row.orderId} reads {row.state.value}, filled {row.filled.canon} of {t.queued.quantity.canon}"
            atTime := stamp
            venueOrderId := some row.orderId
            bookStatus := some row.state }]
  else pure []

structure Tally where
  collection : Collection
  contradicted : List (MirrorQueued × String)

def tallyTicket (venue : String) (now : Stamp) (rows : List FillRow) (acc : Tally)
    (t : MirrorTicketState) : R Tally :=
  match rows.find? fun row => t.venueOrderId = some row.orderId with
  | none => pure acc
  | some row =>
    match contradicts t row with
    | some why => pure { acc with contradicted := acc.contradicted ++ [(t.queued, why)] }
    | none => do
      let _ ← now
      let fills ← fillOf venue now t row
      let closes ← closeOf venue now t row
      pure { acc with collection :=
        ⟨acc.collection.fills ++ fills, acc.collection.closes ++ closes⟩ }

def contractsOf (queued : List MirrorQueued) : R (List Contract) := do
  let books ← queued.mapM fun q => TradeEngine.ticketContracts A q q.quantity
  pure (books.flatMap fun b => b.entries.map (·.1))

def tracked (m : MirrorState) : List MirrorTicketState :=
  ((m.tickets.entries.insertionSort (fun a b => ¬ b.1 < a.1)).map (·.2)).filter (·.venueOrderId.isSome)

/-- The first order id two rows share. -/
def twice : List FillRow → List String → Option String
  | [], _ => none
  | row :: rest, seen => if row.orderId ∈ seen then some row.orderId else twice rest (seen ++ [row.orderId])

/-- The venue's fills contradict the mirror: its contracts drift. -/
def contradiction (venue : String) (now : Stamp) (contradicted : List (MirrorQueued × String)) :
    R VenueReconcile := do
  let symbols ← (← contractsOf A (contradicted.map (·.1))).mapM Contract.symbol
  let whys := "; ".intercalate (contradicted.map (·.2))
  venueReconcile venue now false (sortTexts symbols.dedup)
    (some s!"venue fills contradict the mirror ({whys}); venue halted")

/-- The venue's cumulative fills per order id as mirror increments. -/
def collectFills (m : MirrorState) : M Collection := do
  requireConnected "collect_fills"
  let b ← getBroker
  let venue := m.venue.getD b.venue
  lift (refuseIf (venue ≠ b.venue) .broker s!"venue {venue}'s mirror is not {b.venue}'s (I8)")
  let able ← ask H.canReadFills
  lift (refuseIf (!able) .broker
    "the transport cannot read order fills (OrderFillReader); refusing to guess the mirror book (I5)")
  let now ← ask H.now
  let contracts ← lift (contractsOf A ((tracked m).map (·.queued)))
  match ← Prog.attempt (readFills H) with
  | .error f =>
    if f.unavailable || f.isFatal then .fail f
    else unreadableHalt (unreadable b.venue now contracts s!"fill read-back failed: {f.text}")
  | .ok rows =>
    match twice rows [] with
    | some id => unreadableHalt (unreadable b.venue now contracts s!"two fill rows for order {id}")
    | none => do
      let tally ← lift ((tracked m).foldlM (tallyTicket b.venue now rows) ⟨⟨[], []⟩, []⟩)
      if tally.contradicted ≠ [] then unreadableHalt (contradiction A b.venue now tally.contradicted)
      else pure tally.collection

/-! ## The slow path -/

/-- A preflight read older than this is not used by the drain (microseconds). -/
def preflightMaxAge : Int := 30000000

def microseconds (stamp : Stamp) : R Int := do
  let t ← stamp
  pure (t.1.instant.1 * 1000000 + t.1.instant.2)

def readBook : M Book := do
  let positions ← readPositions H
  lift (positionBook A positions)

def preflight : M Unit := do
  requireConnected "preflight"
  modify fun b => { b with preflightBook := none }
  let attempt ← Prog.attempt (do
    let when_ ← ask H.now
    let book ← readBook A H
    pure (when_, book) : M (Stamp × Book))
  match attempt with
  | .ok read => modify fun b => { b with preflightBook := some read }
  | .error f => if f.unavailable || f.isFatal then .fail f else pure ()

/-- The checks every single-instrument order passes before a ticket. -/
def singleChecks (t : Ticket) (noun : String) : R Unit := do
  refuseIf (t.orderType ≠ .market ∧ t.orderType ≠ .limit) .unsupported
    s!"order type {t.orderType.value}: MARKET/LIMIT only"
  refuseIf (t.tif ≠ .day ∧ t.tif ≠ .gtc) .unsupported s!"TIF {t.tif.value}: DAY/GTC only"
  refuseIf (!t.quantity.isIntegral) .unsupported
    s!"quantity {t.quantity.canon} is not a whole number of {noun} (I5)"

def limitFor (t : Ticket) : Option Money := if t.orderType = .limit then t.limitPrice else none

def checkSingle (t : Ticket) : R Unit := do
  refuseIf (t.quantity.le .zero) .value
    s!"ticket quantity must be a positive int, got {t.quantity.canon}"
  refuseIf (t.orderType = .limit ∧ (limitFor t).all (·.le .zero)) .value
    "an LMT ticket needs a positive limit_price (I5)"

def checkCombo (t : Ticket) : R Unit := do
  refuseIf (t.quantity.le .zero) .value
    s!"ticket quantity must be a positive int, got {t.quantity.canon}"
  refuseIf (t.limitPrice.all (·.le .zero)) .value
    "a vertical ticket is LMT with a positive net limit_price (I5)"

def comboTicket (t : Ticket) (legs : List ComboLeg) : R Spec := do
  match ← verticalReason legs with
  | some reason => err .unsupported s!"multi-leg combo: {reason}"
  | none =>
    refuseIf (t.orderType ≠ .limit) .unsupported
      "a vertical is mirrored with one net LIMIT price only"
    refuseIf (t.tif ≠ .day ∧ t.tif ≠ .gtc) .unsupported s!"TIF {t.tif.value}: DAY/GTC only"
    refuseIf (!t.quantity.isIntegral) .unsupported
      s!"quantity {t.quantity.canon} is not a whole number of units (I5)"
    let symbols ← legs.mapM fun l => l.contract.symbol
    checkCombo t
    pure ⟨symbols, t.side, t.quantity, t.orderType, t.limitPrice, t.tif⟩

/-- How one venue order becomes a transport ticket, or is refused as unsupported. -/
def ticketFor (t : Ticket) : R Spec :=
  match t.instrument with
  | .combo legs => comboTicket t legs
  | .single (.equity symbol) => do
    singleChecks t "shares"
    refuseIf (equitySymbol symbol ≠ .ok symbol) .value
      s!"stock ticket symbol must be an upper-case equity symbol, got {pyRepr symbol}"
    checkSingle t
    pure ⟨[symbol], t.side, t.quantity, t.orderType, limitFor t, t.tif⟩
  | .single (.option c) => do
    singleChecks t "contracts"
    let occ ← (Contract.option c).symbol
    checkSingle t
    pure ⟨[occ], t.side, t.quantity, t.orderType, limitFor t, t.tif⟩
  | .single (.future f) =>
    err .unsupported
      s!"{f.root}: only single option contracts, shares and verticals are mirrored (§4.7)"

def placeOrder (spec : Spec) (key : String) : M (Except Fault PlaceRaw) := do
  .modify fun w => { w with sends := w.sends ++ [⟨key, w.broker.halted⟩] }
  Prog.attempt (ask fun n => H.placeOrder n spec key)

/-- The records of a send that proved a venue order id. -/
def prove (t : Ticket) (raw : PlaceRaw) : M Unit :=
  match placedOrderId raw with
  | some (orderId, state) =>
    modify fun b => { b with
      sent := b.sent.put t.venueOrderId ⟨t, orderId, t.quantity⟩
      proven := b.proven.put t.venueOrderId (orderId, state) }
  | none => pure ()

/-- What a send that answered does to the records, and its acknowledgement. -/
def recordSend (t : Ticket) (raw : PlaceRaw) : M Ack := do
  prove t raw
  let now ← ask H.now
  makeAck t.venueOrderId now (placeResult raw)

/-- One ticket to the venue. A refused or unclear send is an acknowledgement, never a raise. -/
def send (t : Ticket) : M Ack := do
  match ticketFor t with
  | .error e =>
    if e.kind = .unsupported then ack H t .rejected s!"UnsupportedCapability: {e.msg}"
    else lift (.error e)
  | .ok spec =>
    match ← placeOrder H spec t.venueOrderId with
    | .error (.raised r) => do
      let now ← ask H.now
      makeAck t.venueOrderId now (placeException r)
    | .error f => .fail f
    | .ok raw => recordSend H t raw

/-- Compare the venue with the mirror book; drift, or an unreadable venue, halts. -/
def reconcileNow (deferUnavailable : Bool) : M VenueReconcile := do
  let now ← ask H.now
  let b ← getBroker
  let read ← Prog.attempt (do
    let positions ← readPositions H
    let working ← readWorking H
    pure (positions, working) : M (List (Contract × Money) × List Row))
  let event ← (match read with
    | .ok (positions, working) => lift (reconcile A b.venue now b.expected positions working)
    | .error f =>
      if f.isFatal || (deferUnavailable && f.unavailable) then .fail f
      else lift (unreadable b.venue now (b.expected.entries.map (·.1)) f.text) : M VenueReconcile)
  haltIf (!event.reconciled)
  pure event

structure DrainReport where
  acks : List Ack
  reconcile : Option VenueReconcile
  proven : List (String × String × OrderState)

def finish (acks : List Ack) (contracts : List Contract) (failed : Option String) : M DrainReport := do
  let now ← ask H.now
  let b ← getBroker
  let event ← (match failed with
    | some why => lift (unreadable b.venue now (contracts ++ b.expected.entries.map (·.1)) why)
    | none => reconcileNow A H false : M VenueReconcile)
  haltIf (!event.reconciled)
  let b ← getBroker
  pure ⟨acks, some event, b.proven.entries⟩

def rejectAll (why : String) : List Ticket → List Ack → M (List Ack)
  | [], acks => pure acks
  | t :: rest, acks => do
    let a ← ack H t .rejected s!"cannot read the venue before sending: {why}"
    unexpect A t none
    rejectAll why rest (acks ++ [a])

/-- What a sent ticket's read-back makes of it: its acknowledgement, the positions after it and the
rows claimed. -/
def readBack (t : Ticket) (sent : Ack) (before : Book) (claimed : List Nat) :
    M (Ack × Book × List Nat) := do
  let read ← Prog.attempt (do
    let positions ← readPositions H
    let working ← readWorking H
    pure (positions, working) : M (List (Contract × Money) × List Row))
  match read with
  | .error f =>
    if f.isFatal then .fail f
    else do
      let a ← ack H t .pending s!"{sent.message}; read-back failed: {f.text}"
      pure (a, before, claimed)
  | .ok (positions, working) => do
    let ((status, reason), claimed) ← lift (confirmTicket A t before positions working claimed)
    unexpectIf A (status = .rejected) t none
    let message := if status = .pending then s!"{sent.message}; {reason}" else reason
    let a ← ack H t status message
    let book ← lift (positionBook A positions)
    pure (a, book, claimed)

def drainTicket (t : Ticket) (before : Book) (claimed : List Nat) : M (Ack × Book × List Nat) := do
  let b ← getBroker
  if b.halted then do
    let a ← ack H t .rejected s!"venue {b.venue} is halted; not sent"
    unexpect A t none
    pure (a, before, claimed)
  else do
    let sent ← send H t
    if sent.status = .rejected then do
      unexpect A t none
      pure (sent, before, claimed)
    else readBack A H t sent before claimed

/-- The tickets of a drain, one at a time, each read back before the next. -/
def drainTickets : List Ticket → Book → List Nat → List Ack → M (List Ack)
  | [], _, _, acks => pure acks
  | t :: rest, before, claimed, acks => do
    let (a, before, claimed) ← drainTicket A H t before claimed
    drainTickets rest before claimed (acks ++ [a])

/-- The positions a drain starts from: a fresh preflight, or a read. -/
def startBook (taken : Option (Stamp × Book)) : M (Except Fault Book) :=
  match taken with
  | some (when_, book) => do
    let now ← ask H.now
    let age ← lift (do pure ((← microseconds now) - (← microseconds when_)) : R Int)
    if age ≤ preflightMaxAge then pure (.ok book) else Prog.attempt (readBook A H)
  | none => Prog.attempt (readBook A H)

def drainQueue (tickets : List Ticket) (taken : Option (Stamp × Book)) : M DrainReport := do
  let books ← lift (tickets.mapM fun t => ticketContracts A t.instrument t.side t.quantity)
  let contracts := books.flatMap fun b => b.entries.map (·.1)
  match ← startBook A H taken with
  | .error f =>
    if f.isFatal then .fail f
    else do
      let acks ← rejectAll A H f.text tickets []
      finish A H acks contracts (some s!"pre-send read failed: {f.text}")
  | .ok before => do
    let acks ← drainTickets A H tickets before [] []
    finish A H acks contracts none

/-- Send queued tickets one at a time, each read back, then reconcile. -/
def drain : M DrainReport := do
  requireConnected "drain"
  let b ← getBroker
  modify fun b => { b with preflightBook := none }
  if b.queue = [] then pure ⟨[], none, []⟩
  else do
    modify fun b => { b with queue := [], proven := .empty }
    drainQueue A H b.queue b.preflightBook

/-! ## Cancel -/

/-- A cancel the venue confirmed: what still rested leaves the expected book. -/
def settleCancel (key : String) (s : Sent) : M Unit := do
  modify fun b => { b with sent := b.sent.remove key }
  unexpect A s.ticket (some s.resting)
  modify fun b => { b with cancelled := b.cancelled ++ [key] }

/-- A cancel at the venue of a ticket with a proven order id. -/
def cancelAtVenue (key : String) (now : Stamp) (s : Sent) : M Ack := do
  let able ← ask H.canCancel
  if !able then makeAck key now (.rejected, "the transport cannot cancel; refusing")
  else do
    match ← Prog.attempt (ask fun n => H.cancelOrder n s.orderId) with
    | .error (.raised r) => do
      let now ← ask H.now
      makeAck key now (cancelException r)
    | .error f => .fail f
    | .ok raw => do
      let now ← ask H.now
      let a ← makeAck key now (cancelResult raw)
      if a.status = .accepted then do
        settleCancel A key s
        pure a
      else pure a

/-- One ticket by its key. Allowed while halted: a cancel only lowers risk. -/
def cancel (key : String) : M Ack := do
  requireConnected "cancel"
  let now ← ask H.now
  let b ← getBroker
  if key ∈ b.cancelled then makeAck key now (.accepted, "already cancelled")
  else
    match b.queue.find? (·.venueOrderId = key) with
    | some queued => do
      modify fun b => { b with queue := b.queue.eraseP (·.venueOrderId = key) }
      unexpect A queued none
      modify fun b => { b with cancelled := b.cancelled ++ [key] }
      makeAck key now (.accepted, "cancelled before send: dropped from the queue")
    | none =>
      match b.sent.get key with
      | none =>
        makeAck key now
          (.rejected, "no venue Order ID was proven for this ticket; refusing to guess the row (I5)")
      | some s => cancelAtVenue A H key now s

/-! ## Calls -/

inductive Call where
  | markConnected
  | mirrorBatch (orders : List NOrder) (holdings : OMap (String × Contract) Money)
  | drain
  | cancel (key : String)
  | restore (m : MirrorState) (haltedVenues : List String)
  | collectFills (m : MirrorState)
  | preflight
  | reconcileNow (deferUnavailable : Bool)

def Call.exec : Call → M Unit
  | .markConnected => modify fun b => { b with connected := true }
  | .mirrorBatch orders holdings => do let _ ← Tos.mirrorBatch A sha256 H orders holdings
  | .drain => do let _ ← Tos.drain A H
  | .cancel key => do let _ ← Tos.cancel A H key
  | .restore m haltedVenues => Tos.restore A m haltedVenues
  | .collectFills m => do let _ ← Tos.collectFills A H m
  | .preflight => Tos.preflight A H
  | .reconcileNow deferUnavailable => do let _ ← Tos.reconcileNow A H deferUnavailable

def run (calls : List Call) (w : World) : World :=
  calls.foldl (fun w c => (c.exec A sha256 H w).2) w

def World.start (venue : String) (mirrored : List String) (halted : Bool) : World :=
  ⟨Broker.new venue mirrored halted, 0, []⟩

end TradeEngine.Tos
