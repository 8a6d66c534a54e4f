import TradeEngine.Sim.Broker
import TradeEngine.Lib.Program

/-!
# The one-minute-bar venue, refused calls included

The same calls as programs over the book: a call that ends in a refusal leaves what it had done by
then. The writes stand where the venue makes them, before or after the checks around them.
-/

namespace TradeEngine.Sim

open Lib Lib.Prog

abbrev Act := Prog LErr Book

namespace Act

variable (A : Arith) (cal : Calendars)

def expireDue (now : R Ts) : Act Unit := do
  let at' ← lift now
  forEach (fun id => change (Book.expireOne cal at' · id)) (← gets Book.orderIds)

/-! ## Filling -/

/-- Number the fill, book it, then the order, then the position. -/
def fillOrder (w : Working) (id : String) (quantity price : Money) (filledAt : Ts) : Act Nat := do
  let n := ((← get).fillCounts.get id).getD 0 + 1
  modify fun b => { b with fillCounts := b.fillCounts.put id n }
  let f ← lift (makeVFill (id ++ ":fill:" ++ toString n) w.order quantity price filledAt)
  modify fun b => { b with fills := b.fills ++ [f] }
  let filled ← lift (Ops.add A w.filled quantity)
  let state := if filled.eqNum w.order.quantity then .filled else .partiallyFilled
  modify fun b => b.setOrder id { w with filled := filled, state := state, updatedAt := filledAt }
  change (Book.updatePosition A · f)
  gets fun b => b.fills.length - 1

def fill (id : String) (price : Money) (filledAt : Ts) : Act (Option Nat) := do
  let w ← read (·.requireOrder id)
  if !working w.state then pure none
  else
    let quantity ← read (·.fillQuantity A w)
    if w.order.parent.isSome && quantity.isZero then pure none
    else some <$> fillOrder A w id quantity price filledAt

/-- The price and the bar of a stop submitted inside the bar that filled its entry. -/
def stopInsideEntryBar (b : Book) (id : String) : R (Option (Money × Bar)) := do
  let w ← b.requireOrder id
  let order := w.order
  match order.parent, b.lastBars.get order.instr.hk with
  | some parent, some bar =>
    if order.otype ≠ .stop then pure none
    else if !(← b.isRegularSessionBar cal bar) then pure none
    else
      let entries := b.fills.filter fun f => f.orderId = parent ∧ f.filledAt.eq bar.ts = true
      match entries.getLast?.map (·.price), order.stop with
      | some entryPrice, some stop =>
        let base := match order.side with
          | .sell => if bar.low.gt stop then none else some (dmin stop entryPrice)
          | .buy => if bar.high.lt stop then none else some (dmax stop entryPrice)
        match base with
        | none => pure none
        | some base => do
          pure (some (← slippedPrice b.bps b.slippageTicks base order, bar))
      | _, _ => pure none
  | _, _ => pure none

def fillStopInsideEntryBar (id : String) : Act Unit := do
  match ← read (stopInsideEntryBar cal · id) with
  | none => pure ()
  | some (price, bar) => discard (fill A id price bar.ts)

/-! ## The calls -/

def ack (id : String) (status : AckStatus) (msg : Option String) (now : R Ts) : Act Ack :=
  read (·.ack id status msg now)

def connect (clock : Clock) : Act Ts := do
  modify fun b => { b with connected := true }
  lift (clock 0)

/-- An id the book has not seen is taken up, or noted as rejected. -/
def take (order : VOrder) (clock : Clock) : Act Ack := do
  let at' ← lift (clock 1)
  match ← gets (·.lateExitReason order) with
  | some reason => do
    modify (·.setOrder order.id ⟨order, .rejected, .zero, at', false⟩)
    ack order.id .rejected (some reason) (clock 2)
  | none => do
    modify (·.setOrder order.id ⟨order, .accepted, .zero, at', false⟩)
    fillStopInsideEntryBar A cal order.id
    ack order.id .accepted none (clock 2)

/-- An id the book has seen is answered from the book. -/
def repeated (existing : Working) (order : VOrder) (clock : Clock) : Act Ack := do
  lift (refuseIf (existing.order.same order = false) .sim
    s!"venue_order_id '{order.id}' was reused with different terms")
  match existing.state with
  | .cancelled => ack order.id .rejected (some "Order is already cancelled") (clock 1)
  | .rejected => ack order.id .rejected (some "Order was rejected") (clock 1)
  | _ => ack order.id .accepted none (clock 1)

def submit (order : VOrder) (clock : Clock) : Act Ack := do
  read (·.requireConnected)
  expireDue cal (clock 0)
  read (·.validate order)
  match ← gets (·.orders.get order.id) with
  | some existing => repeated existing order clock
  | none => take A cal order clock

def cancel (id : String) (clock : Clock) : Act Ack := do
  expireDue cal (clock 0)
  let w ← read (·.requireOrder id)
  match w.state with
  | .cancelled => ack id .accepted none (clock 1)
  | .filled | .expired | .rejected => ack id .rejected (some s!"Order is {w.state.value}") (clock 1)
  | _ => do
    modify (·.setOrder id { w with state := .cancelled })
    let at' ← read (·.eventTime (clock 1))
    modify (·.setOrder id { w with state := .cancelled, updatedAt := at' })
    ack id .accepted none (clock 2)

/-- `replace` up to building the replacement order: its refusal, or none. -/
def replaceRefusal (w : Working) (newQuantity : Option Money) : Option String :=
  let quantity := newQuantity.getD w.order.quantity
  if !working w.state then some s!"Order is {w.state.value}"
  else if quantity.lt w.filled then
    some "Replacement quantity must be finite and at least the filled quantity"
  else if quantity.mantissa ≤ 0 then some "Replacement quantity must be positive"
  else if newQuantity.isSome && w.order.allocs.length != 1 then
    some "SimBroker requires one-to-one order allocations"
  else none

def replaceCommit (id : String) (order : VOrder) (clock : Clock) : Act Ack := do
  let w ← read (·.requireOrder id)
  let state := if w.filled.eqNum order.quantity then .filled else w.state
  modify (·.setOrder id { w with order := order, state := state })
  let at' ← read (·.eventTime (clock 1))
  modify (·.setOrder id { w with order := order, state := state, updatedAt := at' })
  ack id .accepted none (clock 2)

def replace (id : String) (changes : OrderChanges) (clock : Clock) : Act Ack := do
  expireDue cal (clock 0)
  let w ← read (·.requireOrder id)
  match replaceRefusal w changes.newQuantity with
  | some msg => ack id .rejected (some msg) (clock 1)
  | none => match Book.replacement w.order changes with
    | .error e => ack id .rejected (some e.msg) (clock 1)
    | .ok order => replaceCommit id order clock

/-! ## Queries -/

/-- One row of `orders(since)`. -/
structure OrderRow where
  id : String
  state : OrderState
  filled : Money
  remaining : Money
  updatedAt : Ts

def orderRow (id : String) (w : Working) : R OrderRow := do
  pure ⟨id, w.state, w.filled, ← Ops.sub A w.order.quantity w.filled, w.updatedAt⟩

/-- The orders touched at or after an instant, by id. -/
def rowsSince (since : Ts) (b : Book) : R (List OrderRow) :=
  (b.orders.entries.insertionSort fun x y => (compare x.1 y.1 != .gt) = true).filter (·.2.updatedAt.ge since)
    |>.mapM fun e => orderRow A e.1 e.2

def ordersSince (since : R Ts) (clock : Clock) : Act (List OrderRow) := do
  let since ← lift since
  expireDue cal (clock 0)
  read (rowsSince A since)

def fillsSince (since : R Ts) (clock : Clock) : Act (List VFill) := do
  let since ← lift since
  expireDue cal (clock 0)
  gets fun b => b.fills.filter (·.filledAt.ge since)

def openPositions (b : Book) : R (List Pos) := do
  let keyed ← b.positions.values.mapM fun p => do pure (← p.instr.symbol, p)
  let sorted := keyed.insertionSort fun x y => (compare x.1 y.1 != .gt) = true
  pure ((sorted.map (·.2)).filter fun p => !p.qty.isZero)

def positions (clock : Clock) : Act (List Pos) := do
  expireDue cal (clock 0)
  read openPositions

/-! ## Bars -/

/-- The price a bar gives an order; the trigger of a stop-limit is noted before the price is made. -/
def executionPrice (bar : Bar) (id : String) : Act (Option Money) := do
  let w ← read (·.requireOrder id)
  if bar.ts.le w.order.submittedAt then pure none
  else
    let (w, base) ← read (·.executionBase cal w bar)
    modify (·.setOrder id w)
    match base with
    | none => pure none
    | some base => some <$> read fun b => slippedPrice b.bps b.slippageTicks base w.order

def candidates (bar : Bar) : List String → Act (List (String × Money))
  | [] => pure []
  | id :: ids => do
    let price ← executionPrice cal bar id
    let rest ← candidates bar ids
    pure ((price.map fun p => (id, p)).toList ++ rest)

def fillAll (filledAt : Ts) : List (String × Money) → Act (List Nat)
  | [] => pure []
  | (id, price) :: choices => do
    let at' ← fill A id price filledAt
    let rest ← fillAll filledAt choices
    pure (at'.toList ++ rest)

/-- The checks made before a bar is matched; none if the bar was matched before. -/
def openBar (b : Book) (bar? : Option Bar) : R (Option Bar) := do
  b.requireConnected
  match bar? with
  | none => err .missingBar "Cannot simulate fills without an observed bar"
  | some bar =>
    b.checkInstrument bar.instr "SimBroker supports equities only" "SimBroker supports futures only"
    refuseIf (bar.ts.offMinute = true) .value "SimBroker requires minute-aligned bar timestamps"
    match (b.lastBars.get bar.instr.hk).filter (bar.ts.eq ·.ts) with
    | some previous => do
      refuseIf (bar.same previous = false) .value
        "Conflicting bars share the same instrument and timestamp"
      pure none
    | none => do
      b.checkBarSequence cal bar
      pure (some bar)

def lastBar (bar : Bar) : Act Unit :=
  modify fun b => { b with lastBars := b.lastBars.insert bar.instr.hk bar.instr bar }

def matchBar (bar : Bar) : Act (List Nat) := do
  forEach (fun id => change (Book.expireAt cal bar · id)) (← gets Book.orderIds)
  if !(← read (·.isRegularSessionBar cal bar)) then
    lastBar bar
    pure []
  else
    let choices ← candidates cal bar (← gets fun b => b.orderIds.filter (b.active bar))
    let out ← fillAll A bar.ts (← gets (·.schedule choices))
    lastBar bar
    pure out

def processBar (bar? : Option Bar) : Act (List Nat) := do
  match ← read (openBar cal · bar?) with
  | none => pure []
  | some bar => matchBar A cal bar

/-! ## Restoring -/

/-- The first bar an order could trade in. -/
def firstEligibleBar (b : Book) (instr : Instrument) (submittedAt : Ts) : R Ts := do
  let opening ← match b.venue with
    | .xnys => do cal.sessionOpen (← cal.daySession submittedAt)
    | .globex => do
      let g ← cal.gcal instr
      g.sessionOpen (← g.sessionOrNext submittedAt)
  if submittedAt.lt opening then pure opening else submittedAt.floorMinute.addSeconds 60

/-- A stop-limit no bar has triggered yet. Returns the clock reads so far. -/
def checkUntriggered (clock : Clock) (reads : Nat) (order : VOrder) (state : OrderState) (b : Book) :
    R Nat := do
  if order.otype = .stopLimit ∧ state = .accepted then
    if ← b.hasExpired cal order (← clock reads) then pure (reads + 1)
    else
      let second ← clock (reads + 1)
      refuseIf (second.gt (← firstEligibleBar cal b order.instr order.submittedAt) = true) .sim
        s!"Cannot restore stop-limit '{order.id}': bars since its submission may have triggered it"
      pure (reads + 2)
  else pure reads

def restorable : OrderState → Bool
  | .accepted | .partiallyFilled | .filled | .cancelled | .expired | .rejected => true
  | _ => false

def restoreOrders (clock : Clock) : Nat → List (VOrder × OrderState) → Act Unit
  | _, [] => pure ()
  | reads, (order, state) :: rest => do
    lift (refuseIf (restorable state = false) .sim
      s!"Cannot restore '{order.id}' in state {state.value}")
    read fun b => refuseIf ((b.orders.get order.id).isSome = true) .sim
      s!"Order '{order.id}' restored twice"
    read (·.validate order)
    let reads ← read (checkUntriggered cal clock reads order state)
    modify (·.setOrder order.id ⟨order, state, .zero, order.submittedAt, false⟩)
    restoreOrders clock reads rest

/-- The digits at the end of a fill id of this order. -/
def fillDigits (f : VFill) : R (List Char) :=
  match rpartition ":fill:".toList f.fillId.toList with
  | some (before, number) =>
    if String.ofList before ≠ f.orderId ∨ asciiDecimal number = false then
      err .sim s!"Fill id '{f.fillId}' is not a SimBroker fill id"
    else pure number
  | none => err .sim s!"Fill id '{f.fillId}' is not a SimBroker fill id"

def fillNumber (number : List Char) : R Nat :=
  let n := number.foldl (fun n c => 10 * n + (c.toNat - '0'.toNat)) 0
  if n < 2 ^ 128 then pure n else err .unsupported "a fill number beyond u128"

def restoreFill (f : VFill) : Act Unit := do
  let w ← read fun b => match b.orders.get f.orderId with
    | some w => pure w
    | none => err .sim s!"Fill '{f.fillId}' references unrestored order '{f.orderId}'"
  let number ← lift (fillDigits f)
  lift (refuseIf (f.instr.same w.order.instr = false ∨ f.side ≠ w.order.side) .sim
    s!"Fill '{f.fillId}' does not match order '{f.orderId}'")
  let n ← lift (fillNumber number)
  modify fun b => { b with
    fillCounts := b.fillCounts.put f.orderId (max ((b.fillCounts.get f.orderId).getD 0) n) }
  let filled ← lift (Ops.add A w.filled f.quantity)
  modify fun b => b.setOrder f.orderId { w with
    filled := filled, updatedAt := tsMax w.updatedAt f.filledAt, triggered := true }
  modify fun b => { b with fills := b.fills ++ [f] }

/-- What is filled of an order fits its state. -/
def consistent (w : Working) : Bool :=
  match w.state with
  | .accepted => w.filled.mantissa = 0
  | .partiallyFilled => 0 < w.filled.mantissa ∧ w.filled.lt w.order.quantity = true
  | .filled => w.filled.eqNum w.order.quantity
  | _ => w.filled.le w.order.quantity

def checkRestored (w : Working) : R Unit :=
  refuseIf (consistent w = false) .sim
    s!"Order '{w.order.id}' is {w.state.value} with {w.filled.canon} of {w.order.quantity.canon} filled"

def restorePosition (p : Pos) : Act Unit := do
  if (← gets (·.positions.get p.instr.hk)).isSome then
    let symbol ← lift p.instr.symbol
    lift (err .sim s!"Position {symbol} restored twice")
  else if p.qty.isZero then pure ()
  else modify fun b => { b with positions := b.positions.insert p.instr.hk p.instr p }

/-- Entries before exits, so that an exit finds its parent. -/
def restore (orders : List (VOrder × OrderState)) (fills : List VFill) (positions : List Pos)
    (clock : Clock) : Act Unit := do
  read fun b => refuseIf (¬ (b.orders.items = [] ∧ b.fills = [] ∧ b.lastBars.items = [] ∧
    b.positions.items = [])) .sim "restore() requires an empty SimBroker"
  restoreOrders cal clock 0
    (orders.filter (·.1.parent.isNone) ++ orders.filter (·.1.parent.isSome))
  forEach (restoreFill A) (fills.insertionSort fun f g =>
    f.filledAt.lt g.filledAt = true ∨ f.filledAt.eq g.filledAt = true ∧ (compare f.fillId g.fillId != .gt) = true)
  forEach (fun w => lift (checkRestored w)) (← gets (·.orders.values))
  forEach restorePosition positions

end Act

/-! ## Runs -/

inductive Request where
  | connect (clock : Clock)
  | restore (orders : List (VOrder × OrderState)) (fills : List VFill) (positions : List Pos) (clock : Clock)
  | submit (order : VOrder) (clock : Clock)
  | cancel (id : String) (clock : Clock)
  | replace (id : String) (changes : OrderChanges) (clock : Clock)
  | orders (since : R Ts) (clock : Clock)
  | fills (since : R Ts) (clock : Clock)
  | positions (clock : Clock)
  | processBar (bar : Option Bar)

/-- A call, for the book it leaves. -/
def perform (A : Arith) (cal : Calendars) : Request → Act Unit
  | .connect clock => discard (Act.connect clock)
  | .restore orders fills positions clock => Act.restore A cal orders fills positions clock
  | .submit order clock => discard (Act.submit A cal order clock)
  | .cancel id clock => discard (Act.cancel cal id clock)
  | .replace id changes clock => discard (Act.replace cal id changes clock)
  | .orders since clock => discard (Act.ordersSince A cal since clock)
  | .fills since clock => discard (Act.fillsSince cal since clock)
  | .positions clock => discard (Act.positions cal clock)
  | .processBar bar => discard (Act.processBar A cal bar)

/-- The book a call leaves, refused or not. -/
def after (A : Arith) (cal : Calendars) (b : Book) (r : Request) : Book := (perform A cal r b).2

/-- The book a sequence of calls leaves. -/
def afterAll (A : Arith) (cal : Calendars) (b : Book) (rs : List Request) : Book := rs.foldl (after A cal) b

end TradeEngine.Sim
