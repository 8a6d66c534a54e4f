import TradeEngine.Sim.Venue

/-!
# The one-minute-bar venue

The book of the simulated venue and every call on it. A call returns the book it leaves with its
answer, or the refusal that ended it. Sums of quantities go through `Arith`; a clock is the sequence
of its reads within one call.
-/

namespace TradeEngine.Sim

open Lib

structure Book where
  accountId : String
  venue : VenueCalendar
  bps : Money
  slippageTicks : Nat
  connected : Bool
  orders : OMap String Working
  fills : List VFill
  fillCounts : OMap String Nat
  lastBars : OMap Instrument Bar
  positions : OMap Instrument Pos

inductive AckStatus where
  | accepted
  | rejected
deriving DecidableEq, Repr

structure Ack where
  id : String
  status : AckStatus
  ts : Ts
  msg : Option String

/-- The reads of a clock, in order. -/
abbrev Clock := Nat → R Ts

/-- What an order asks to change. -/
structure OrderChanges where
  newQuantity : Option Money
  newLimitPrice : Option Money
  newStopPrice : Option Money

/-- What `replace` does after its own checks: answer now, or let the host build the replacement. -/
inductive Begin where
  | done (ack : Ack)
  | go (quantity : Money)

/-! ## Texts that order the orders of a group -/

/-- The parts of a text around the last occurrence of a separator. -/
def rpartition (sep : List Char) : List Char → Option (List Char × List Char)
  | [] => none
  | c :: cs => match rpartition sep cs with
    | some (before, after) => some (c :: before, after)
    | none => if sep.isPrefixOf (c :: cs) then some ([], (c :: cs).drop sep.length) else none

def asciiDecimal (s : List Char) : Bool := !s.isEmpty && s.all (·.isDigit)

/-- Stops first, then numbered targets by number, then the rest. -/
structure Prio where
  exit : Bool
  unnumbered : Bool
  length : Nat
  digits : String
  name : String

def Prio.le (p q : Prio) : Bool :=
  ((compare p.exit q.exit).then <| (compare p.unnumbered q.unnumbered).then <|
    (compare p.length q.length).then <| (compare p.digits q.digits).then (compare p.name q.name)) != .gt

def ocoPriority (o : VOrder) : Prio :=
  if o.otype = .stop then ⟨false, false, 0, "", o.id⟩
  else
    let soid := (o.allocs.head?.map (·.soid)).getD ""
    match rpartition ":target:".toList soid.toList with
    | some (before, suffix) =>
      if !before.isEmpty && asciiDecimal suffix then
        let t := suffix.dropWhile (· == '0')
        ⟨true, false, t.length, String.ofList t, soid⟩
      else ⟨true, true, 0, "", o.id⟩
    | none => ⟨true, true, 0, "", o.id⟩

namespace Book

/-- `new_with_venue`. -/
def newWithVenue (accountId : String) (bps : Money) (ticks : Nat) (venue : VenueCalendar) : R Book := do
  refuseIf (accountId = "") .value "account_id must be non-empty"
  refuseIf (bps.isNegative = true) .value "slippage_bps must be non-negative"
  pure ⟨accountId, venue, bps, ticks, false, .empty, [], .empty, .empty, .empty⟩

/-! ## Reading the book -/

def requireConnected (b : Book) : R Unit :=
  refuseIf (b.connected = false) .sim "Call connect() before using SimBroker"

def requireOrder (b : Book) (id : String) : R Working :=
  match b.orders.get id with
  | some w => .ok w
  | none => err .unknownOrder s!"Unknown SimBroker order '{id}'"

/-- The ids of the orders, in the order they came. -/
def orderIds (b : Book) : List String := b.orders.entries.map (·.1)

/-- The orders that name `parent` as their entry. -/
def exits (b : Book) (parent : String) : List Working :=
  b.orders.values.filter (·.order.parent = some parent)

def eventTime (b : Book) (now : R Ts) : R Ts := do
  let at' ← now
  match b.lastBars.values.map (·.ts) with
  | [] => pure at'
  | first :: rest => pure (tsMax at' (rest.foldl tsMax first))

def ack (b : Book) (id : String) (status : AckStatus) (msg : Option String) (now : R Ts) : R Ack := do
  pure ⟨id, status, ← b.eventTime now, msg⟩

/-- One order written back. -/
def setOrder (b : Book) (id : String) (w : Working) : Book :=
  { b with orders := b.orders.put id w }

section

variable (cal : Calendars) (b : Book)

/-! ## Sessions and expiry -/

def opgSessionOpen (instr : Instrument) (submittedAt : Ts) : R Ts := do
  match b.venue with
  | .xnys =>
    let date ← cal.nyDate submittedAt
    if ← cal.isSession date then
      let opening ← cal.sessionOpen date
      if submittedAt.lt opening then pure opening
      else cal.sessionOpen (← cal.nextSession date)
    else cal.sessionOpen (← cal.rollNext date)
  | .globex =>
    let g ← cal.gcal instr
    let td ← g.sessionOrNext submittedAt
    let opening ← g.sessionOpen td
    if submittedAt.lt opening then pure opening
    else g.sessionOpen (← g.nextSession td)

def expiryInstant (order : VOrder) : R (Option Ts) :=
  match order.tif with
  | .day => match b.venue with
    | .xnys => do
      pure (some (← cal.sessionClose (← cal.daySession order.submittedAt)))
    | .globex => do
      let g ← cal.gcal order.instr
      pure (some (← g.sessionClose (← g.sessionOrNext order.submittedAt)))
  | .opg => do pure (some (← b.opgSessionOpen cal order.instr order.submittedAt))
  | _ => .ok none

def hasExpired (order : VOrder) (at' : Ts) : R Bool := do
  if at'.le order.submittedAt then pure false
  else match ← b.expiryInstant cal order with
    | none => pure false
    | some instant => pure (if order.tif = .opg then at'.gt instant else at'.ge instant)

def isRegularSessionBar (bar : Bar) : R Bool := do
  match b.venue with
  | .xnys =>
    let date ← cal.nyDate bar.ts
    if !(← cal.sessionOpen date).le bar.ts then pure false
    else pure (bar.ts.lt (← cal.sessionClose date))
  | .globex => (← cal.gcal bar.instr).isOpenAt bar.ts

/-- One order of `expire_due`: it expires once its last bar has been seen. -/
def expireOne (now : Ts) (b : Book) (id : String) : R Book := do
  let w ← b.requireOrder id
  if !working w.state then pure b
  else if !(← b.hasExpired cal w.order now) then pure b
  else match ← b.expiryInstant cal w.order with
    | none => err .sim "Expired order has no expiry instant"
    | some instant =>
      let lastChance ← (if w.order.tif = .opg then pure instant else instant.addSeconds (-60) : R Ts)
      match b.lastBars.get w.order.instr.hk with
      | none => pure b
      | some bar =>
        if bar.ts.lt lastChance then pure b
        else pure (b.setOrder id { w with state := .expired, updatedAt := instant })

def expireDue (now : R Ts) : R Book := do
  b.orderIds.foldlM (expireOne cal (← now)) b

/-! ## The bar sequence -/

def missingOpening (symbol : String) (opening : Ts) : R Unit :=
  err .missingBar s!"Missing session opening one-minute bar for {symbol} at {opening.iso}"

def outOfOrder (symbol : String) (bar previous : Bar) : R Unit :=
  err .value s!"Out-of-order bar for {symbol}: {bar.ts.iso} follows {previous.ts.iso}"

def checkBarSequenceEquity (bar : Bar) : R Unit := do
  let symbol ← bar.instr.symbol
  let date ← cal.nyDate bar.ts
  refuseIf ((← cal.isSession date) = false) .missingBar
    s!"Bar for {symbol} is on non-session date {date.iso}"
  let opening ← cal.sessionOpen date
  match b.lastBars.get bar.instr.hk with
  | none => if bar.ts.eq opening then pure () else missingOpening symbol opening
  | some previous =>
    if bar.ts.eq previous.ts then pure ()
    else if bar.ts.lt previous.ts then outOfOrder symbol bar previous
    else
      let before ← cal.nyDate previous.ts
      if date = before then
        refuseIf (¬ (bar.ts.key.1 - previous.ts.key.1 = 60 ∧ bar.ts.key.2 = previous.ts.key.2))
          .missingBar s!"Missing one-minute bar for {symbol} between {previous.ts.iso} and {bar.ts.iso}"
      else
        let lastRegular ← (← cal.sessionClose before).addSeconds (-60)
        refuseIf (previous.ts.lt lastRegular = true) .missingBar
          s!"Missing closing one-minute bars for {symbol}: session {before.iso} ended at {previous.ts.iso}, expected {lastRegular.iso}"
        let next ← cal.nextSession before
        refuseIf (date ≠ next) .missingBar
          s!"Missing session bars for {symbol}: expected {next.iso}, received {date.iso}"
        if bar.ts.eq opening then pure () else missingOpening symbol opening

/-- Gaps inside a session, and whole missing sessions, are the feed's concern. -/
def checkBarSequenceFutures (bar : Bar) : R Unit := do
  let symbol ← bar.instr.symbol
  match ← (← cal.gcal bar.instr).sessionAt bar.ts with
  | none =>
    err .missingBar
      s!"Bar for {symbol} at {bar.ts.iso} is not inside a Globex session (halt, weekend or closure)"
  | some _ =>
    match b.lastBars.get bar.instr.hk with
    | none => pure ()
    | some previous =>
      if bar.ts.eq previous.ts then pure ()
      else if bar.ts.lt previous.ts then outOfOrder symbol bar previous
      else pure ()

def checkBarSequence (bar : Bar) : R Unit :=
  match b.venue with
  | .xnys => b.checkBarSequenceEquity cal bar
  | .globex => b.checkBarSequenceFutures cal bar

end

/-! ## Accepting an order -/

def isEquity : Instrument → Bool
  | .single (.equity _) => true
  | _ => false

def isFuture : Instrument → Bool
  | .single (.future _) => true
  | _ => false

/-- The book trades what its calendar is for. -/
def checkInstrument (b : Book) (instr : Instrument) (equities futures : String) : R Unit :=
  match b.venue with
  | .xnys => refuseIf (isEquity instr = false) .value equities
  | .globex => refuseIf (isFuture instr = false) .value futures

def validate (b : Book) (order : VOrder) : R Unit := do
  b.checkInstrument order.instr "SimBroker accepts equity orders only"
    "SimBroker accepts futures orders only"
  refuseIf (order.otype = .trail) .value s!"Unsupported order type {order.otype.value}"
  refuseIf (order.tif = .gtd ∨ order.tif = .moc) .value s!"Unsupported time in force {order.tif.value}"
  refuseIf (order.tif = .opg ∧ order.otype ≠ .market) .value
    "OPG is supported only for market-on-open orders"
  refuseIf (order.allocs.any (·.account != b.accountId) = true) .value
    "Venue order allocation account does not match SimBroker account"
  refuseIf (order.allocs.length ≠ 1) .value "SimBroker requires one-to-one strategy-order allocations"
  match order.parent with
  | none => pure ()
  | some parent => match b.orders.get parent with
    | none => err .value s!"Parent order '{parent}' is not held by this SimBroker"
    | some p =>
      refuseIf (p.order.instr ≠ order.instr ∨ p.order.side = order.side) .value
        s!"Exit '{order.id}' must close parent '{parent}' in the same instrument"

/-- A resting exit that arrives after bars past its entry's fill could have traded in them. -/
def lateExitReason (b : Book) (order : VOrder) : Option String := do
  let parent ← order.parent
  if order.otype = .market then none
  else
    let times := (b.fills.filter (·.orderId = parent)).map (·.filledAt)
    let entry ← times.head?.map fun first => times.tail.foldl tsMax first
    let bar ← b.lastBars.get order.instr.hk
    if bar.ts.le entry then none
    else
      some s!"Exit arrived after bars following entry '{parent}' filled at {entry.iso} were simulated (latest bar {bar.ts.iso}); reconcile after every bar"

/-! ## Filling -/

variable (A : Arith)

/-- What the entry has filled and its exits have not yet taken off. -/
def bracketOpenQuantity (b : Book) (parent : String) : R Money := do
  let p ← b.requireOrder parent
  let exited ← (b.exits parent).foldlM (fun s w => Ops.add A s w.filled) Money.zero
  pure (dmax (← Ops.sub A p.filled exited) .zero)

/-- What an exit may take: no more than its bracket has open, nor than the position it closes. -/
def exitQuantity (b : Book) (order : VOrder) (parent : String) (quantity : Money) : R Money := do
  let quantity := dmin quantity (← b.bracketOpenQuantity A parent)
  let position : Money := ((b.positions.get order.instr.hk).map (·.qty)).getD .zero
  let closes := (decide (0 < position.mantissa) && order.side == .sell) ||
    (position.isNegative && order.side == .buy)
  let available ← (if closes then Ops.abs A position else pure .zero : R Money)
  pure (dmin quantity available)

/-- The average price after a fill: weighted while the position grows, kept while it shrinks, the
fill's own once it changes side. -/
def updatedAverage (quantity average change updated price : Money) : R Money := do
  if quantity.mantissa = 0 ∨ (0 < quantity.mantissa ↔ 0 < change.mantissa) then
    let aq ← d quantity.abs
    let ac ← d change.abs
    let basis ← d (aq.add ac)
    d ((← d ((← d (aq.mul average)).add (← d (ac.mul price)))).div basis)
  else if updated.mantissa = 0 then pure .zero
  else if (0 < updated.mantissa) ≠ (0 < quantity.mantissa) then pure price
  else pure average

def updatePosition (b : Book) (f : VFill) : R Book := do
  let held := b.positions.get f.instr.hk
  let quantity : Money := (held.map (·.qty)).getD .zero
  let average : Money := (held.map (·.avg)).getD .zero
  let change ← (if f.side = .buy then pure f.quantity else Ops.neg A f.quantity : R Money)
  let updated ← Ops.add A quantity change
  let average ← updatedAverage quantity average change updated f.price
  pure { b with
    positions := b.positions.insert f.instr.hk f.instr ⟨f.instr, updated, average, f.filledAt⟩ }

/-- What a fill of an order takes: all that is left of it, an exit no more than its bracket allows. -/
def fillQuantity (b : Book) (w : Working) : R Money := do
  let left ← Ops.sub A w.order.quantity w.filled
  match w.order.parent with
  | none => pure left
  | some parent => b.exitQuantity A w.order parent left

/-- Fill a working order. The answer is the place of the fill in the book's list. -/
def fill (b : Book) (id : String) (price : Money) (filledAt : Ts) : R (Book × Option Nat) := do
  let w ← b.requireOrder id
  if !working w.state then pure (b, none)
  else
    let quantity ← b.fillQuantity A w
    if w.order.parent.isSome && quantity.isZero then pure (b, none)
    else
      let n := (b.fillCounts.get id).getD 0 + 1
      let f ← makeVFill (id ++ ":fill:" ++ toString n) w.order quantity price filledAt
      let filled ← Ops.add A w.filled quantity
      let state := if filled.eqNum w.order.quantity then .filled else .partiallyFilled
      let b := b.setOrder id { w with filled := filled, state := state, updatedAt := filledAt }
      let b := { b with fillCounts := b.fillCounts.put id n, fills := b.fills ++ [f] }
      pure (← b.updatePosition A f, some (b.fills.length - 1))

/-- A stop submitted inside the bar that filled its entry can still trade in that bar. -/
def fillStopInsideEntryBar (cal : Calendars) (b : Book) (id : String) : R Book := do
  let w ← b.requireOrder id
  let order := w.order
  match order.parent, b.lastBars.get order.instr.hk with
  | some parent, some bar =>
    if order.otype ≠ .stop then pure b
    else if !(← b.isRegularSessionBar cal bar) then pure b
    else
      let entries := b.fills.filter fun f => f.orderId = parent ∧ f.filledAt.eq bar.ts = true
      match entries.getLast?.map (·.price), order.stop with
      | some entryPrice, some stop =>
        let base := match order.side with
          | .sell => if bar.low.gt stop then none else some (dmin stop entryPrice)
          | .buy => if bar.high.lt stop then none else some (dmax stop entryPrice)
        match base with
        | none => pure b
        | some base => do
          let price ← slippedPrice b.bps b.slippageTicks base order
          pure (← b.fill A id price bar.ts).1
      | _, _ => pure b
  | _, _ => pure b

/-! ## The calls -/

def submit (cal : Calendars) (b : Book) (order : VOrder) (clock : Clock) : R (Book × Ack) := do
  b.requireConnected
  let b ← b.expireDue cal (clock 0)
  b.validate order
  match b.orders.get order.id with
  | some existing =>
    refuseIf (existing.order.same order = false) .sim
      s!"venue_order_id '{order.id}' was reused with different terms"
    let (status, msg) : AckStatus × Option String := match existing.state with
      | .cancelled => (.rejected, some "Order is already cancelled")
      | .rejected => (.rejected, some "Order was rejected")
      | _ => (.accepted, none)
    pure (b, ← b.ack order.id status msg (clock 1))
  | none =>
    let at' ← clock 1
    match b.lateExitReason order with
    | some reason =>
      let b := b.setOrder order.id ⟨order, .rejected, .zero, at', false⟩
      pure (b, ← b.ack order.id .rejected (some reason) (clock 2))
    | none =>
      let b := b.setOrder order.id ⟨order, .accepted, .zero, at', false⟩
      let b ← b.fillStopInsideEntryBar A cal order.id
      pure (b, ← b.ack order.id .accepted none (clock 2))

def cancel (cal : Calendars) (b : Book) (id : String) (clock : Clock) : R (Book × Ack) := do
  let b ← b.expireDue cal (clock 0)
  let w ← b.requireOrder id
  match w.state with
  | .cancelled => pure (b, ← b.ack id .accepted none (clock 1))
  | .filled | .expired | .rejected =>
    pure (b, ← b.ack id .rejected (some s!"Order is {w.state.value}") (clock 1))
  | _ =>
    let b := b.setOrder id { w with state := .cancelled, updatedAt := ← b.eventTime (clock 1) }
    pure (b, ← b.ack id .accepted none (clock 2))

/-- `replace` up to building the replacement order. -/
def replaceBegin (cal : Calendars) (b : Book) (id : String) (newQuantity : Option Money)
    (clock : Clock) : R (Book × Begin) := do
  let b ← b.expireDue cal (clock 0)
  let w ← b.requireOrder id
  let quantity := newQuantity.getD w.order.quantity
  if !working w.state then
    pure (b, .done (← b.ack id .rejected (some s!"Order is {w.state.value}") (clock 1)))
  else if quantity.lt w.filled then
    pure (b, .done (← b.ack id .rejected
      (some "Replacement quantity must be finite and at least the filled quantity") (clock 1)))
  else if quantity.mantissa ≤ 0 then
    pure (b, .done (← b.ack id .rejected (some "Replacement quantity must be positive") (clock 1)))
  else if newQuantity.isSome && w.order.allocs.length != 1 then
    pure (b, .done (← b.ack id .rejected
      (some "SimBroker requires one-to-one order allocations") (clock 1)))
  else pure (b, .go quantity)

/-- The one allocation at a new quantity, through its constructor. -/
def reallocated (allocs : List Alloc) (newQuantity : Option Money) : R (List Alloc) :=
  match newQuantity, allocs with
  | some quantity, a :: _ => do
    refuseIf (a.soid = "") .value "strategy_order_id must be non-empty"
    refuseIf (a.account = "") .value "account_id must be non-empty"
    refuseIf (quantity.mantissa ≤ 0) .value s!"quantity must be positive, got {quantity.canon}"
    pure [⟨a.soid, a.account, quantity⟩]
  | _, _ => pure allocs

/-- The replacement the host builds, through the constructor of an order. -/
def replacement (current : VOrder) (changes : OrderChanges) : R VOrder := do
  let quantity := changes.newQuantity.getD current.quantity
  let allocs ← reallocated current.allocs changes.newQuantity
  let limit := changes.newLimitPrice <|> current.limit
  let stop := changes.newStopPrice <|> current.stop
  refuseIf (current.id = "") .value "venue_order_id must be non-empty"
  if hq : quantity.mantissa ≤ 0 then err .value s!"quantity must be positive, got {quantity.canon}"
  else do
    validateOrderPrices current.otype limit stop current.trail
    refuseIf (allocs.isEmpty = true) .value "VenueOrder must carry at least one strategy-order allocation"
    let allocated ← d (allocs.foldlM (fun s a => s.add a.qty) Money.zero)
    refuseIf (allocated ≠ quantity) .value
      s!"VenueOrder allocations total {allocated.canon} but order quantity is {quantity.canon}"
    pure { current with
      quantity := quantity, limit := limit, stop := stop, allocs := allocs,
      quantity_pos := not_le.mp hq }

/-- Install the replacement order. -/
def replaceCommit (b : Book) (id : String) (order : VOrder) (clock : Clock) : R (Book × Ack) := do
  let w ← b.requireOrder id
  let state := if w.filled.eqNum order.quantity then .filled else w.state
  let b := b.setOrder id
    { w with order := order, state := state, updatedAt := ← b.eventTime (clock 1) }
  pure (b, ← b.ack id .accepted none (clock 2))

def replace (cal : Calendars) (b : Book) (id : String) (changes : OrderChanges) (clock : Clock) :
    R (Book × Ack) := do
  match ← b.replaceBegin cal id changes.newQuantity clock with
  | (b, .done ack) => pure (b, ack)
  | (b, .go _) =>
    let w ← b.requireOrder id
    match replacement w.order changes with
    | .error e => pure (b, ← b.ack id .rejected (some e.msg) (clock 1))
    | .ok order => b.replaceCommit id order clock

/-- The price a bar gives a working order before slippage, and the order with its trigger noted. -/
def executionBase (cal : Calendars) (b : Book) (w : Working) (bar : Bar) :
    R (Working × Option Money) :=
  if w.order.tif = .opg then do
    if !bar.ts.eq (← b.opgSessionOpen cal w.order.instr w.order.submittedAt) ||
        w.order.otype != .market then pure (w, none)
    else pure (w, some bar.opening)
  else match w.order.otype, w.order.limit, w.order.stop with
    | .market, _, _ => pure (w, some bar.opening)
    | .limit, some limit, _ => pure (w, limitBase w.order.side limit bar)
    | .limit, none, _ => err .sim "Accepted limit order has no limit price"
    | .stop, _, some stop => pure (w, stopBase w.order.side stop bar)
    | .stop, _, none => err .sim "Accepted stop order has no stop price"
    | .stopLimit, _, _ => do
      let (triggered, base) ← stopLimitBase w bar
      pure ({ w with triggered := triggered }, base)
    | .trail, _, _ => err .sim s!"Unsupported accepted order type {w.order.otype.value}"

def executionPrice (cal : Calendars) (b : Book) (w : Working) (bar : Bar) :
    R (Working × Option Money) := do
  if bar.ts.le w.order.submittedAt then pure (w, none)
  else match ← b.executionBase cal w bar with
    | (w, none) => pure (w, none)
    | (w, some base) => pure (w, some (← slippedPrice b.bps b.slippageTicks base w.order))

/-- The orders a bar can fill, each with its price, in the order they came. -/
def candidates (cal : Calendars) (bar : Bar) (b : Book) (ids : List String) :
    R (Book × List (String × Money)) :=
  ids.foldlM (fun (acc : Book × List (String × Money)) id => do
    let w ← acc.1.requireOrder id
    let (w, price) ← acc.1.executionPrice cal w bar
    pure (acc.1.setOrder id w, acc.2 ++ (price.map fun p => (id, p)).toList)) (b, [])

/-- One candidate after another. -/
def fillAll (filledAt : Ts) (b : Book) (choices : List (String × Money)) : R (Book × List Nat) :=
  choices.foldlM (fun (acc : Book × List Nat) choice => do
    let (b, at') ← acc.1.fill A choice.1 choice.2 filledAt
    pure (b, acc.2 ++ at'.toList)) (b, [])

/-- The candidates of one group, by priority: a stop that can fill is the only one that does. -/
def selected (b : Book) (choices : List (String × Money)) : List (String × Money) :=
  let keyed := choices.filterMap fun c => (b.orders.get c.1).map fun w => (w.order, c)
  let sorted := keyed.insertionSort fun x y => (ocoPriority x.1).le (ocoPriority y.1) = true
  match sorted.find? (·.1.otype = .stop) with
  | some s => [s.2]
  | none => sorted.map (·.2)

/-- The candidates outside every group first, then each group by its name. -/
def schedule (b : Book) (choices : List (String × Money)) : List (String × Money) :=
  let group (c : String × Money) : Option String := (b.orders.get c.1).bind (·.order.oco)
  let groups := ((choices.filterMap group).dedup).insertionSort fun x y => (compare x y != .gt) = true
  choices.filter (fun c => group c = none) ++
    groups.flatMap fun g => b.selected (choices.filter fun c => group c = some g)

/-- One order of `process_bar`'s expiry loop. -/
def expireAt (cal : Calendars) (bar : Bar) (b : Book) (id : String) : R Book := do
  let w ← b.requireOrder id
  if w.order.instr = bar.instr && working w.state then
    if ← b.hasExpired cal w.order bar.ts then
      pure (b.setOrder id { w with state := .expired, updatedAt := bar.ts })
    else pure b
  else pure b

def active (b : Book) (bar : Bar) (id : String) : Bool :=
  match b.orders.get id with
  | some w => w.order.instr = bar.instr && working w.state && w.filled.lt w.order.quantity
  | none => false

/-- Match working orders against one bar; the places in `fills` of the new fills. -/
def processBar (cal : Calendars) (b : Book) (bar? : Option Bar) : R (Book × List Nat) := do
  b.requireConnected
  match bar? with
  | none => err .missingBar "Cannot simulate fills without an observed bar"
  | some bar =>
    b.checkInstrument bar.instr "SimBroker supports equities only" "SimBroker supports futures only"
    refuseIf (bar.ts.offMinute = true) .value "SimBroker requires minute-aligned bar timestamps"
    let hk := bar.instr.hk
    let seen := (b.lastBars.get hk).filter (bar.ts.eq ·.ts)
    match seen with
    | some previous => do
      refuseIf (bar.same previous = false) .value
        "Conflicting bars share the same instrument and timestamp"
      pure (b, [])
    | none => do
      b.checkBarSequence cal bar
      let b ← b.orderIds.foldlM (expireAt cal bar) b
      if !(← b.isRegularSessionBar cal bar) then
        pure ({ b with lastBars := b.lastBars.insert hk bar.instr bar }, [])
      else
        let (b, choices) ← candidates cal bar b (b.orderIds.filter (b.active bar))
        let (b, out) ← b.fillAll A bar.ts (b.schedule choices)
        pure ({ b with lastBars := b.lastBars.insert hk bar.instr bar }, out)

end Book

/-! ## Runs -/

inductive Call where
  | connect
  | submit (order : VOrder) (clock : Clock)
  | cancel (id : String) (clock : Clock)
  | replace (id : String) (changes : OrderChanges) (clock : Clock)
  | processBar (bar : Option Bar)

/-- The book one call leaves. -/
def step (A : Arith) (cal : Calendars) (b : Book) : Call → R Book
  | .connect => .ok { b with connected := true }
  | .submit order clock => (·.1) <$> b.submit A cal order clock
  | .cancel id clock => (·.1) <$> b.cancel cal id clock
  | .replace id changes clock => (·.1) <$> b.replace cal id changes clock
  | .processBar bar => (·.1) <$> b.processBar A cal bar

/-- The book a sequence of calls leaves, none of which errs. -/
def run (A : Arith) (cal : Calendars) (b : Book) (calls : List Call) : R Book :=
  calls.foldlM (step A cal) b

end TradeEngine.Sim
