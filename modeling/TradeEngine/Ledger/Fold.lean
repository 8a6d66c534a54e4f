import TradeEngine.Ledger.Trade

/-!
# The fold over ledger events

Every handler refuses a contradiction, in one check order, and a refusal aborts the whole fold.
-/

namespace TradeEngine

open Lib

/-- The folded state of one account. -/
structure AccountState where
  accountId : String
  cash : Money
  positions : OMap Instrument Position
  orders : OMap String Order
  filledQuantity : OMap String Money
  legFilled : OMap (String × Int) Money
  venueOrderIds : OMap String String
  emulatedOrders : OMap String EmulatedOrderState
  fills : List Fill
  fillIds : List String
  marks : OMap Instrument Money
  realizedPnl : Money
  signalsSeen : Int
  verdicts : Int
  refusals : Int
  lastReconcile : Option VenueReconcile
  venueHalted : Bool
  haltedVenues : List String
  riskControls : OMap String Bool
  mirror : MirrorState
  lastSeq : Int

namespace AccountState

def new (accountId : String) : AccountState :=
  { accountId := accountId, cash := .zero, positions := .empty, orders := .empty,
    filledQuantity := .empty, legFilled := .empty, venueOrderIds := .empty,
    emulatedOrders := .empty, fills := [], fillIds := [], marks := .empty, realizedPnl := .zero,
    signalsSeen := 0, verdicts := 0, refusals := 0, lastReconcile := none, venueHalted := false,
    haltedVenues := [], riskControls := .empty, mirror := .new, lastSeq := 0 }

/-- What an order has filled; nothing before its first fill. -/
def filled (st : AccountState) (orderId : String) : Money :=
  (st.filledQuantity.get orderId).getD .zero

end AccountState

def legHk (orderId : String) (index : Int) : String :=
  toString orderId.utf8ByteSize ++ ":" ++ orderId ++ "#" ++ toString index

/-! ## The order state machine -/

/-- The states an order may move to next. -/
def nextStates : OrderState → List OrderState
  | .new => [.submitted, .cancelled, .rejected]
  | .submitted => [.accepted, .partiallyFilled, .filled, .rejected, .cancelled, .pendingUnknown]
  | .accepted => [.partiallyFilled, .filled, .cancelled, .expired, .rejected, .pendingUnknown]
  | .partiallyFilled => [.partiallyFilled, .filled, .cancelled, .expired, .pendingUnknown]
  | .pendingUnknown =>
    [.submitted, .accepted, .partiallyFilled, .filled, .cancelled, .expired, .rejected]
  | .filled | .cancelled | .expired | .rejected => []

def allowed (source target : OrderState) : Bool := (nextStates source).contains target

def validateTransition (source target : OrderState) : R Unit :=
  if source = target || allowed source target then .ok ()
  else err .illegalTransition
    s!"Illegal order state transition from {source.value} to {target.value}"

def transitionTo (o : Order) (target : OrderState) : R Order := do
  validateTransition o.state target
  pure { o with state := target }

/-! ## Helpers -/

def requireOrder (st : AccountState) (orderId : String) (kind : EventKind) : R Order :=
  match st.orders.get orderId with
  | some o => .ok o
  | none =>
    fe (s!"{kind.value} references unknown order '{orderId}' in account '{st.accountId}';" ++
      " refusing to invent one (I5)")

/-- Two lower-case hex digits. -/
def hex2 (n : Nat) : String := padZeros 2 (String.ofList (Nat.toDigits 16 n))

def pyRepr (s : String) : String :=
  let cs := s.toList
  let q := if cs.contains '\'' && !cs.contains '"' then '"' else '\''
  let body := cs.map fun c =>
    if c = '\\' then "\\\\"
    else if c = '\n' then "\\n"
    else if c = '\r' then "\\r"
    else if c = '\t' then "\\t"
    else if c = q then "\\" ++ c.toString
    else if c.toNat < 0x20 || c.toNat = 0x7f then "\\x" ++ hex2 c.toNat
    else c.toString
  q.toString ++ "".intercalate body ++ q.toString

/-- `parse::<i128>` of a text of decimal digits. -/
def parseI128 (s : String) : Option Int :=
  if s = "" ∨ !s.toList.all Char.isDigit then none
  else
    let n := s.toList.foldl (fun acc c => acc * 10 + (c.toNat - '0'.toNat)) 0
    if n < 2 ^ 127 then some n else none

def comboLegIndex (legId : String) : Option Int :=
  match parseI128 (String.ofList (legId.toList.dropWhile (· == '0'))) with
  | some n => some n
  | none => if legId.toList.all (· == '0') then some 0 else none

/-- The leg a fill of a combo order names; `none` for any other order. -/
def comboLeg (o : Order) (f : Fill) : R (Option (Int × ComboLeg)) :=
  match o.instrument with
  | .single _ => .ok none
  | .combo legs =>
    let named := f.legId.elim "None" pyRepr
    let bad : R (Option (Int × ComboLeg)) :=
      err .fillMismatch (s!"Fill {f.fillId} on combo order '{f.orderId}' names leg {named};" ++
        s!" a combo fill must name one of its {legs.length} legs by index (I5)")
    match f.legId.filter pyIsDigit |>.bind comboLegIndex with
    | none => bad
    | some index =>
      match legs[index.toNat]? with
      | none => bad
      | some leg => do
        refuseIfM (!f.instrument.same (.single leg.contract)) .fillMismatch do
          let was ← f.instrument.symbol
          let want ← leg.contract.symbol
          pure (s!"Fill {f.fillId} on {was} was filed against leg {index} of combo" ++
            s!" order '{f.orderId}', which is {want} (I5)")
        refuseIf (f.side ≠ leg.side) .fillMismatch
          (s!"Fill {f.fillId} is a {f.side.value} but leg {index} of combo order" ++
            s!" '{f.orderId}' is a {leg.side.value}; refusing the wrong direction (I5)")
        pure (some (index, leg))

/-! ## Fills -/

variable (A : Arith)

/-- Whole units of a combo filled so far: the least over its legs. -/
def comboUnits (legFilled : OMap (String × Int) Money) (orderId : String) :
    List ComboLeg → Int → Option Money → R (Option Money)
  | [], _, best => .ok best
  | leg :: legs, index, best => do
    let filled := (legFilled.get (legHk orderId index)).getD .zero
    let units ← Ops.divI A filled leg.ratio
    let best := match best with
      | none => units
      | some b => if units.lt b then units else b
    comboUnits legFilled orderId legs (index + 1) (some best)

/-- The filled quantity of an order (and of one leg of it) after a fill. -/
def recordFilled (st : AccountState) (o : Order) (leg : Option (Int × ComboLeg)) (f : Fill) :
    R AccountState :=
  match leg with
  | none => do
    let total ← Ops.add A (st.filled f.orderId) f.quantity
    pure { st with filledQuantity := st.filledQuantity.put f.orderId total }
  | some (index, leg) => do
    let key := legHk f.orderId index
    let now ← Ops.add A ((st.legFilled.get key).getD .zero) f.quantity
    let legFilled := st.legFilled.insert key (f.orderId, index) now
    let ordered ← Ops.mulI A o.quantity leg.ratio
    refuseIf (now.gt ordered) .fold
      (s!"Fill {f.fillId} would take leg {index} of combo order '{f.orderId}' to {now.canon}" ++
        s!" contracts against {ordered.canon} ordered; refusing the over-fill (I5)")
    let legs := match o.instrument with
      | .combo legs => legs
      | .single _ => []
    match ← comboUnits A legFilled f.orderId legs 0 none with
    | some best =>
      pure { st with legFilled := legFilled
                     filledQuantity := st.filledQuantity.put f.orderId best }
    | none => err .value "min() iterable argument is empty"

/-- A fill is on its order's instrument and side, and is not one already recorded. -/
def checkFill (st : AccountState) (o : Order) (leg : Option (Int × ComboLeg)) (f : Fill) :
    R Unit := do
  refuseIfM (leg.isNone && !f.instrument.same o.instrument) .fillMismatch do
    let was ← f.instrument.symbol
    let want ← o.instrument.symbol
    pure (s!"Fill {f.fillId} on instrument {was} was filed against order" ++
      s!" '{f.orderId}' for {want}; the log contradicts the order (I5)")
  refuseIf (leg.isNone && f.side ≠ o.side) .fillMismatch
    (s!"Fill {f.fillId} is a {f.side.value} but its order '{f.orderId}' is a" ++
      s!" {o.side.value}; refusing to apply the wrong direction (I5)")
  refuseIf (st.fillIds.contains f.fillId) .duplicateFill
    (s!"Fill '{f.fillId}' is already in the ledger for account" ++
      s!" '{st.accountId}'; a replayed venue fill is a no-op, not a second position (I3)")

/-- The order after a fill took it to `total`. -/
def filledOrder (o : Order) (total : Money) : R Order :=
  if o.state = .filled then .ok o
  else transitionTo o (if total.ge o.quantity then .filled else .partiallyFilled)

def fillOrder (st : AccountState) (o : Order) (f : Fill) (total : Money) : R AccountState := do
  refuseIf (total.gt o.quantity) .fold
    (s!"Fill {f.fillId} would take order '{f.orderId}' to {total.canon} filled against an" ++
      s!" order size of {o.quantity.canon}; refusing the over-fill rather than inventing an" ++
      " oversized order (I5)")
  refuseIf (o.state = .cancelled || o.state = .expired || o.state = .rejected) .fold
    (s!"Fill {f.fillId} arrived for order '{f.orderId}' already in terminal state" ++
      s!" {o.state.value}; the log contradicts the order state (I5)")
  let moved ← filledOrder o total
  pure (if moved.state = o.state then st
    else { st with orders := st.orders.put f.orderId moved })

/-- Money and quantities are always finite here, so the source's finite checks never refuse. -/
def onFill (st : AccountState) (f : Fill) : R AccountState := do
  let o ← (match st.orders.get f.orderId with
    | some o => pure o
    | none => fe s!"Fill {f.fillId} references unknown order '{f.orderId}' (I5)")
  let leg ← comboLeg o f
  checkFill st o leg f
  let mult ← f.instrument.multiplier
  let gross ← Ops.mulI A (← Ops.mul A f.quantity f.price) mult
  let signedGross ← (if f.side = .sell then pure gross else Ops.neg A gross)
  let cashDelta ← Ops.sub A signedGross f.fee
  let hk := f.instrument.hk
  let prior := st.positions.get hk
  let priorRealized := prior.elim .zero Position.realizedPnl
  let traded ← applyTrade A st.accountId prior
    ⟨f.instrument, f.side, f.quantity, f.price, f.filledAt, f.fillId, mult⟩
  let realized ← Ops.sub A traded.realizedPnl f.fee
  let updated := { traded with realizedPnl := realized }
  let st := { st with positions := st.positions.insert hk f.instrument updated }
  let st ← recordFilled A st o leg f
  let st ← fillOrder st o f (st.filled f.orderId)
  let cash ← Ops.add A st.cash cashDelta
  let pnl ← Ops.add A st.realizedPnl (← Ops.sub A realized priorRealized)
  pure { st with cash := cash
                 realizedPnl := pnl
                 fills := st.fills ++ [f]
                 fillIds := f.fillId :: st.fillIds }

/-! ## Orders -/

/-- A stored order is submitted again only under its own command and while it is `SUBMITTED`. -/
def checkResubmit (stored : Option Order) (order : Order) : R Unit :=
  match stored with
  | none => .ok ()
  | some existing => do
    refuseIf (existing.commandId ≠ order.commandId) .fold
      (s!"Order '{order.orderId}' was already submitted under command '{existing.commandId}';" ++
        s!" refusing to overwrite it with '{order.commandId}' (I3)")
    refuseIf (existing.state ≠ .submitted) .fold
      (s!"Order '{order.orderId}' is already {existing.state.value}; refusing a second" ++
        " OrderSubmitted that would reset it (I2)")

def onOrderSubmitted (st : AccountState) (o : Order) : R AccountState := do
  let order ← (if o.state = .new then transitionTo o .submitted else pure o)
  checkResubmit (st.orders.get order.orderId) order
  pure { st with orders := st.orders.put order.orderId order }

def createOrder (orders : OMap String Order) (o : Order) : R (OMap String Order) := do
  refuseIf ((orders.get o.orderId).any (!·.same o)) .fold
    (s!"Order '{o.orderId}' already exists with a different payload;" ++
      " refusing to overwrite it (I3)")
  pure (orders.put o.orderId o)

def onOrdersCreated (st : AccountState) (c : OrdersCreated) : R AccountState := do
  pure { st with orders := ← c.orders.foldlM createOrder st.orders }

/-- A stop whose price moved restarts its emulation; a triggered one refuses. -/
def restartEmulation (emulated : OMap String EmulatedOrderState) (previous : Order)
    (u : OrderUpdated) : R (OMap String EmulatedOrderState) := do
  let current := u.order
  let stopKind := current.orderType = .stop || current.orderType = .stopLimit
  match emulated.get current.orderId with
  | none => pure emulated
  | some emulation =>
    if stopKind && current.stopPrice ≠ previous.stopPrice then
      refuseIf (emulation.triggered || current.stopPrice.isNone) .fold
        s!"Cannot change stop price for triggered emulated order '{current.orderId}' (I5)"
      let rebuilt : EmulatedOrderState :=
        ⟨current.orderId, emulation.observedPrice, none, current.stopPrice, false, u.reason⟩
      checkEmulated rebuilt
      pure (emulated.put current.orderId rebuilt)
    else pure emulated

def identityChanged (previous current : Order) : Bool :=
  previous.accountId != current.accountId || !previous.instrument.same current.instrument ||
    previous.side != current.side || previous.commandId != current.commandId ||
    previous.parentOrderId != current.parentOrderId || previous.ocoGroup != current.ocoGroup

def onOrderUpdated (st : AccountState) (u : OrderUpdated) (kind : EventKind) :
    R AccountState := do
  let current := u.order
  let previous ← requireOrder st current.orderId kind
  refuseIf (identityChanged previous current) .fold
    s!"OrderUpdated changed immutable identity fields for '{current.orderId}' (I5)"
  (validateTransition previous.state current.state).mapError fun e => ⟨.fold, e.msg⟩
  let filled := st.filled current.orderId
  refuseIf (current.quantity.lt filled) .fold
    (s!"OrderUpdated quantity {current.quantity.canon} is below already-filled quantity" ++
      s!" {filled.canon} for '{current.orderId}'")
  let emulated ← restartEmulation st.emulatedOrders previous u
  pure { st with
    orders := st.orders.put current.orderId current
    venueOrderIds := match u.venueOrderId with
      | some v => st.venueOrderIds.put current.orderId v
      | none => st.venueOrderIds
    emulatedOrders := emulated }

def onOrderState (st : AccountState) (c : OrderStateChange) (kind : EventKind)
    (target : OrderState) : R AccountState := do
  let order ← requireOrder st c.orderId kind
  let moved ← transitionTo order target
  pure { st with
    orders := st.orders.put c.orderId moved
    venueOrderIds := match c.venueOrderId with
      | some v => st.venueOrderIds.put c.orderId v
      | none => st.venueOrderIds }

/-! ## Option lifecycle -/

/-- A value or unresolvable refusal of the option rules becomes a fold refusal. -/
def lifecycleWrap (label : String) (e : OptionError) : LErr :=
  match e with
  | .value m | .unresolvable m => ⟨.fold, label ++ ": " ++ m⟩
  | e => oerr e

/-- Only a value refusal is wrapped where shares are delivered. -/
def deliveryWrap (label : String) (e : LErr) : LErr :=
  if e.kind = .value then ⟨.fold, label ++ ": " ++ e.msg⟩ else e

/-- The checks of an expiry, exercise or assignment against the value and style of the contract. -/
def checkLifecycle (label : String) (n : OptionLifecycle) (kind : EventKind) (held : Side)
    (value : Money) (american : Bool) : R Unit := do
  if kind = .expiry then
    refuseIf n.early .fold s!"{label}: a contract expires only at its expiry (I9)"
    refuseIf (value.ge exerciseThreshold) .fold
      (s!"{label}: {value.canon} in the money at {n.underlyingPrice.canon}; it is exercised or" ++
        " assigned, not expired worthless (I9)")
  else
    let wanted := if kind = .exercise then Side.buy else .sell
    let who := if wanted = .buy then "long" else "short"
    refuseIf (held ≠ wanted) .fold
      s!"{label}: {kind.value} applies to {who} contracts; these are held {held.value} (I5)"
    refuseIf (value.lt exerciseThreshold) .fold
      s!"{label}: not in the money at {n.underlyingPrice.canon}; nobody exercises it (I9)"
    refuseIf (n.early && !american) .fold
      s!"{label}: a European contract cannot be assigned early (I5)"

/-- What a delivery changes: the positions, the cash and the profit realised so far. -/
structure Settled where
  positions : OMap Instrument Position
  cash : Money
  realized : Money

/-- The share trade of one taken lot. -/
def deliverLot (accountId label : String) (n : OptionLifecycle) (kind : EventKind) (held : Side)
    (shares : Contract) (acc : Settled) (lot : Lot) : R Settled := do
  let terms ← (delivery A n.contract (held = .buy) lot.costBasis).mapError
    fun e => deliveryWrap label (oerr e)
  let side := if terms.1 then Side.buy else .sell
  let quantity ← Ops.mulI A lot.quantity n.contract.multiplier
  let hk := (Instrument.single shares).hk
  let position := acc.positions.get hk
  let prior := position.elim .zero Position.realizedPnl
  let mult ← (Instrument.single shares).multiplier
  let updated ← applyTrade A accountId position
    ⟨.single shares, side, quantity, terms.2, n.asOf,
      kind.value ++ ":" ++ n.asOf.iso ++ ":" ++ lot.lotId, mult⟩
  let realized ← Ops.add A acc.realized (← Ops.sub A updated.realizedPnl prior)
  let paid ← Ops.mul A n.contract.strike quantity
  let cash ← (if side = .buy then Ops.sub A acc.cash paid else Ops.add A acc.cash paid)
  pure ⟨acc.positions.insert hk (.single shares) updated, cash, realized⟩

/-- Close the contracts at their exit price and move the cash. -/
def settleCash (st : AccountState) (n : OptionLifecycle) (p : Position) (exitPrice : Money) :
    R Settled := do
  let closed ← consumeLots A p.openLots n.quantity exitPrice n.contract.multiplier
  let realized ← Ops.add A .zero closed.2
  let rem ← remainingPosition A p closed.1 (← Ops.add A p.realizedPnl closed.2)
  let amount ← Ops.mulI A (← Ops.mul A exitPrice n.quantity) n.contract.multiplier
  let cash ← (if n.held = .buy then Ops.add A st.cash amount else Ops.sub A st.cash amount)
  let contract := Instrument.single (.option n.contract)
  pure ⟨st.positions.insert contract.hk contract rem, cash, realized⟩

/-- Take the contracts off the book and trade the shares they deliver, lot by lot. -/
def settleShares (st : AccountState) (label : String) (n : OptionLifecycle) (kind : EventKind)
    (p : Position) : R Settled := do
  let split ← takeLots A p.openLots n.quantity
  let rem ← remainingPosition A p split.1 p.realizedPnl
  let contract := Instrument.single (.option n.contract)
  let symbol ← (deliverable n.contract).mapError fun e => deliveryWrap label (oerr e)
  let shares ← (makeEquity symbol).mapError (deliveryWrap label)
  split.2.foldlM (deliverLot A st.accountId label n kind n.held shares)
    ⟨st.positions.insert contract.hk contract rem, st.cash, .zero⟩

/-- The open position a lifecycle event settles, held on the side the event says. -/
def lifecyclePosition (st : AccountState) (label : String) (n : OptionLifecycle) : R Position := do
  let p ← (match st.positions.get (Contract.option n.contract).hk with
    | some p =>
      if p.quantity.eqNum .zero then fe s!"{label}: no open position to settle (I5)" else pure p
    | none => fe s!"{label}: no open position to settle (I5)")
  let held := if p.quantity.gt .zero then Side.buy else .sell
  refuseIf (held ≠ n.held) .fold
    (s!"{label}: the event says the contracts are held {n.held.value} but the book holds them" ++
      s!" {held.value} (I5)")
  let heldAbs ← Ops.abs A p.quantity
  refuseIf (n.quantity.gt heldAbs) .fold
    s!"{label}: {n.quantity.canon} contracts settled but {heldAbs.canon} are held (I5)"
  pure p

def onLifecycle (st : AccountState) (n : OptionLifecycle) (kind : EventKind) :
    R AccountState := do
  let occ ← n.contract.occ.mapError oerr
  let label := kind.value ++ " of " ++ strip occ ++ " in '" ++ st.accountId ++ "'"
  let p ← lifecyclePosition A st label n
  let value ← (intrinsic A n.contract n.underlyingPrice).mapError (lifecycleWrap label)
  let cashSettled ← (isCashSettled n.contract).mapError (lifecycleWrap label)
  let american ← (canExerciseEarly n.contract).mapError (lifecycleWrap label)
  checkLifecycle label n kind n.held value american
  let settled ← (if kind = .expiry || cashSettled then
      settleCash A st n p (if kind = .expiry then .zero else value)
    else settleShares A st label n kind p)
  let pnl ← Ops.add A st.realizedPnl settled.realized
  pure { st with positions := settled.positions, cash := settled.cash, realizedPnl := pnl }

/-! ## The step -/

def mirrorStep (st : AccountState) (kind : EventKind) (step : MirrorState → R MirrorState) :
    R AccountState :=
  match step st.mirror with
  | .ok m => .ok { st with mirror := m }
  | .error e => if e.kind = .mirrorFold then fe (kind.value ++ ": " ++ e.msg) else .error e

/-- The state an order-state event moves its order to; `none` for a refusal note. -/
def stateTarget : EventKind → Option OrderState
  | .orderPending => some .pendingUnknown
  | .orderAccepted => some .accepted
  | .orderRejected => some .rejected
  | .orderCancelled => some .cancelled
  | .orderExpired => some .expired
  | _ => none

def onReconcile (st : AccountState) (n : VenueReconcile) : AccountState :=
  { st with
    lastReconcile := some n
    venueHalted := st.venueHalted || !n.reconciled
    haltedVenues :=
      if n.reconciled || st.haltedVenues.contains n.venue then st.haltedVenues
      else n.venue :: st.haltedVenues }

def onHaltCleared (st : AccountState) (c : VenueHaltCleared) : R AccountState := do
  refuseIf (!st.haltedVenues.contains c.venue) .fold
    s!"VenueHaltCleared for {c.venue}, which '{st.accountId}' has not halted (I5)"
  let left := st.haltedVenues.filter (· ≠ c.venue)
  pure { st with haltedVenues := left, venueHalted := !left.isEmpty }

/-- `_dispatch`. -/
def dispatch (st : AccountState) (e : Event) : R AccountState :=
  match e.payload with
  | .signal =>
    if e.kind = .signalSeen then .ok { st with signalsSeen := st.signalsSeen + 1 }
    else err .unhandled s!"No fold handler registered for {e.payload.tag} (I5)"
  | .riskVerdict accepted =>
    .ok { st with verdicts := st.verdicts + 1
                  refusals := if accepted then st.refusals else st.refusals + 1 }
  | .ordersCreated c => onOrdersCreated st c
  | .riskControl c => .ok { st with riskControls := st.riskControls.put c.controlId c.enabled }
  | .order o => onOrderSubmitted st o
  | .orderUpdated u => onOrderUpdated st u e.kind
  | .stateChange c =>
    match stateTarget e.kind with
    | some target => onOrderState st c e.kind target
    | none => do
      let _ ← requireOrder st c.orderId e.kind
      pure { st with refusals := st.refusals + 1 }
  | .emulated x => do
    let _ ← requireOrder st x.orderId e.kind
    pure { st with emulatedOrders := st.emulatedOrders.put x.orderId x }
  | .fill f => onFill A st f
  | .cashFlow c => do pure { st with cash := ← Ops.add A st.cash c.amount }
  | .mark m => .ok { st with marks := st.marks.insert m.instrument.hk m.instrument m.price }
  | .reconcile n => .ok (onReconcile st n)
  | .haltCleared c => onHaltCleared st c
  | .eodRun _ => .ok st
  | .lifecycle n => onLifecycle A st n e.kind
  | .mQueued q => mirrorStep st e.kind (onQueued · q)
  | .mRefused r => mirrorStep st e.kind (onRefused · r)
  | .mAck a => mirrorStep st e.kind (onAck · a)
  | .mFill f => mirrorStep st e.kind (onMirrorFill A · f)
  | .corp =>
    err .unhandled ("CorporateAction is owned by a later work package (dividends and splits are" ++
      " not modelled); E1 refuses to invent its ledger semantics (I5)")

/-- The one step `fold` and every cache share. -/
def applyEvent (st : AccountState) (e : Event) : R AccountState := do
  let st ← dispatch A st e
  pure { st with lastSeq := e.seq.getD st.lastSeq }

/-! ## The fold -/

abbrev States := OMap String AccountState

/-- By `seq` when every event has one (stable), else as given. -/
def ordered (events : List Event) : List Event :=
  if events.all (·.seq.isSome) then
    events.insertionSort fun a b => a.seq.getD 0 ≤ b.seq.getD 0
  else events

/-- One event into the state of its account, which its first event opens. -/
def foldStep (states : States) (e : Event) : R States := do
  let st := (states.get e.account).getD (.new e.account)
  pure (states.put e.account (← applyEvent A st e))

def fold (events : List Event) : R States := (ordered events).foldlM (foldStep A) .empty

/-- The events of one account, ordered, folded; an empty state if there are none. -/
def foldAccount (events : List Event) (account : String) : R AccountState := do
  let states ← fold A ((ordered events).filter (·.account = account))
  pure ((states.get account).getD (.new account))

end TradeEngine
