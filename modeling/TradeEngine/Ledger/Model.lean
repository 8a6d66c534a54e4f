import TradeEngine.Lib.OMap
import TradeEngine.Options.Basic

/-!
# The ledger's values and events

Domain values and event payloads, with the validation their constructors run. A value whose
constructor refuses part of its range carries what the constructor checked.
-/

namespace TradeEngine

open Lib

/-! ## Refusals -/

/-- The exception a refusal stands for. -/
inductive ErrKind where
  | fold
  | value
  | payload
  | key
  | host
  | illegalTransition
  | fillMismatch
  | duplicateFill
  | unhandled
  | mirrorFold
  | invalidOperation
  | divisionByZero
  | overflow
  | unsupported
  | unresolvable
  | idempotency
  | orderManagement
  | unsupportedOrder
  | pendingReconciliation
  | brokerUnknown
  | ocoUnknown
  | orderReconciliation
  | stopIteration
  | sim
  | missingBar
  | unknownOrder
  | option
  | duplicate
  | uncovered
  | closed
  | netting
  | broker
  | venueUnreadable
  | raised
  | wire
  | snapshot
  | typeError
  | attribute
deriving DecidableEq, Repr

structure LErr where
  kind : ErrKind
  msg : String
deriving DecidableEq, Repr

abbrev R (α : Type) := Except LErr α

def err {α : Type} (kind : ErrKind) (msg : String) : R α := .error ⟨kind, msg⟩

@[simp] theorem err_ne_ok {α : Type} {kind : ErrKind} {msg : String} {a : α} :
    (err kind msg : R α) = .ok a ↔ False := by simp [err]

/-- A check: refuse when `c` holds. -/
def refuseIf (c : Prop) [Decidable c] (kind : ErrKind) (msg : String) : R Unit :=
  if c then err kind msg else .ok ()

@[simp] theorem refuseIf_eq_ok {c : Prop} [Decidable c] {kind : ErrKind} {msg : String} {u : Unit} :
    refuseIf c kind msg = .ok u ↔ ¬ c := by
  unfold refuseIf
  split <;> simp_all

/-- A check whose message may itself refuse. -/
def refuseIfM (c : Prop) [Decidable c] (kind : ErrKind) (msg : R String) : R Unit :=
  if c then msg.bind (err kind) else .ok ()

@[simp] theorem refuseIfM_eq_ok {c : Prop} [Decidable c] {kind : ErrKind} {msg : R String}
    {u : Unit} : refuseIfM c kind msg = .ok u ↔ ¬ c := by
  unfold refuseIfM
  split
  · cases msg <;> simp_all [Except.bind]
  · simp_all

def derr : DecErr → LErr
  | .invalidOperation => ⟨.invalidOperation, ""⟩
  | .divisionByZero => ⟨.divisionByZero, ""⟩
  | .overflow => ⟨.overflow, ""⟩
  | .unsupported s => ⟨.unsupported, s⟩

def oerr : OptionError → LErr
  | .value m => ⟨.value, m⟩
  | .unresolvable m => ⟨.unresolvable, m⟩
  | .invalidOperation => ⟨.invalidOperation, ""⟩
  | .overflow => ⟨.overflow, ""⟩

/-! ## Enumerations -/

inductive Side where
  | buy
  | sell
deriving DecidableEq, Repr

def Side.value : Side → String
  | .buy => "BUY"
  | .sell => "SELL"

inductive OrderType where
  | market
  | limit
  | stop
  | stopLimit
  | trail
deriving DecidableEq, Repr

def OrderType.value : OrderType → String
  | .market => "MARKET"
  | .limit => "LIMIT"
  | .stop => "STOP"
  | .stopLimit => "STOP_LIMIT"
  | .trail => "TRAIL"

inductive Tif where
  | day
  | gtc
  | gtd
  | opg
  | moc
deriving DecidableEq, Repr

def Tif.value : Tif → String
  | .day => "DAY"
  | .gtc => "GTC"
  | .gtd => "GTD"
  | .opg => "OPG"
  | .moc => "MOC"

inductive OrderState where
  | new
  | submitted
  | accepted
  | partiallyFilled
  | filled
  | cancelled
  | expired
  | rejected
  | pendingUnknown
deriving DecidableEq, Repr

def OrderState.value : OrderState → String
  | .new => "NEW"
  | .submitted => "SUBMITTED"
  | .accepted => "ACCEPTED"
  | .partiallyFilled => "PARTIALLY_FILLED"
  | .filled => "FILLED"
  | .cancelled => "CANCELLED"
  | .expired => "EXPIRED"
  | .rejected => "REJECTED"
  | .pendingUnknown => "PENDING_UNKNOWN"

inductive EventKind where
  | signalSeen
  | riskVerdict
  | ordersCreated
  | riskControl
  | orderSubmitted
  | orderUpdated
  | orderPending
  | orderAccepted
  | orderRejected
  | orderCancelled
  | orderRefused
  | orderExpired
  | orderEmulationUpdated
  | fill
  | assignment
  | exercise
  | expiry
  | corporateAction
  | cashFlow
  | mark
  | venueReconcile
  | venueHaltCleared
  | eodRun
  | mirrorQueued
  | mirrorRefused
  | mirrorAck
  | mirrorFill
deriving DecidableEq, Repr

def EventKind.value : EventKind → String
  | .signalSeen => "SignalSeen"
  | .riskVerdict => "RiskVerdict"
  | .ordersCreated => "OrdersCreated"
  | .riskControl => "RiskControl"
  | .orderSubmitted => "OrderSubmitted"
  | .orderUpdated => "OrderUpdated"
  | .orderPending => "OrderPending"
  | .orderAccepted => "OrderAccepted"
  | .orderRejected => "OrderRejected"
  | .orderCancelled => "OrderCancelled"
  | .orderRefused => "OrderRefused"
  | .orderExpired => "OrderExpired"
  | .orderEmulationUpdated => "OrderEmulationUpdated"
  | .fill => "Fill"
  | .assignment => "Assignment"
  | .exercise => "Exercise"
  | .expiry => "Expiry"
  | .corporateAction => "CorporateAction"
  | .cashFlow => "CashFlow"
  | .mark => "Mark"
  | .venueReconcile => "VenueReconcile"
  | .venueHaltCleared => "VenueHaltCleared"
  | .eodRun => "EodRun"
  | .mirrorQueued => "MirrorQueued"
  | .mirrorRefused => "MirrorRefused"
  | .mirrorAck => "MirrorAck"
  | .mirrorFill => "MirrorFill"

/-! ## Instruments -/

structure ContractMonth where
  year : Int
  month : Nat
  year_mem : 1900 ≤ year ∧ year ≤ 2100
  month_mem : 1 ≤ month ∧ month ≤ 12

instance : DecidableEq ContractMonth := fun m n =>
  decidable_of_iff (m.year = n.year ∧ m.month = n.month) (by cases m; cases n; simp)

def ContractMonth.monthCode (m : ContractMonth) : String :=
  (["F", "G", "H", "J", "K", "M", "N", "Q", "U", "V", "X", "Z"][m.month - 1]?).getD "?"

structure FutureContract where
  root : String
  contractMonth : Option ContractMonth
  tickSize : Money
  pointValue : Money
deriving DecidableEq

def FutureContract.symbol (f : FutureContract) : String :=
  match f.contractMonth with
  | none => f.root
  | some cm => f.root ++ cm.monthCode ++ padZeros 2 (toString (cm.year % 100))

/-- What trades alone, or as a leg: a combo is never a leg of a combo. -/
inductive Contract where
  | equity (symbol : String)
  | option (c : OptionContract)
  | future (f : FutureContract)
deriving DecidableEq

structure ComboLeg where
  contract : Contract
  ratio : Int
  side : Side
  ratio_pos : 0 < ratio

instance : DecidableEq ComboLeg := fun l m =>
  decidable_of_iff (l.contract = m.contract ∧ l.ratio = m.ratio ∧ l.side = m.side) (by cases l; cases m; simp)

inductive Instrument where
  | single (c : Contract)
  | combo (legs : List ComboLeg)
deriving DecidableEq

/-- A text two contracts share exactly when they are equal. -/
def Contract.hk : Contract → String
  | .equity s => "E\x01" ++ s
  | .option c =>
    "O\x01" ++ c.underlying ++ "\x01" ++ c.expiry.iso ++ "\x01" ++ c.strike.canon ++ "\x01" ++
      c.right.code ++ "\x01" ++ toString c.multiplier
  | .future f =>
    let month := match f.contractMonth with
      | some m => padZeros 4 (toString m.year) ++ "-" ++ padZeros 2 (toString m.month)
      | none => ""
    "F\x01" ++ f.root ++ "\x01" ++ month ++ "\x01" ++ f.tickSize.canon ++ "\x01" ++
      f.pointValue.canon

def Instrument.hk : Instrument → String
  | .single c => c.hk
  | .combo legs =>
    legs.foldl (fun s l =>
      s ++ "\x02" ++ toString l.ratio ++ "\x01" ++ l.side.value ++ "\x01" ++ l.contract.hk) "C"

def OptionContract.same (c o : OptionContract) : Bool :=
  c.underlying == o.underlying && c.expiry == o.expiry && c.strike.eqNum o.strike && c.right == o.right &&
    c.multiplier == o.multiplier

def FutureContract.same (f o : FutureContract) : Bool :=
  f.root == o.root && f.contractMonth == o.contractMonth && f.tickSize.eqNum o.tickSize && f.pointValue.eqNum o.pointValue

def Contract.same : Contract → Contract → Bool
  | .equity a, .equity b => a == b
  | .option a, .option b => a.same b
  | .future a, .future b => a.same b
  | _, _ => false

/-- `==` of two instruments: money compares by value. -/
def Instrument.same : Instrument → Instrument → Bool
  | .single a, .single b => a.same b
  | .combo a, .combo b =>
    a.length == b.length &&
      (a.zip b).all fun p => p.1.ratio == p.2.ratio && p.1.side == p.2.side && p.1.contract.same p.2.contract
  | _, _ => false

def Contract.symbol : Contract → R String
  | .equity s => .ok s
  | .option c => c.occ.mapError oerr
  | .future f => .ok f.symbol

def Instrument.symbol : Instrument → R String
  | .single c => c.symbol
  | .combo legs => do
    let parts ← legs.mapM fun l => do
      pure (l.side.value ++ ":" ++ toString l.ratio ++ "x" ++ strip (← l.contract.symbol))
    pure ("/".intercalate parts)

def makeEquity (symbol : String) : R Contract := ((equitySymbol symbol).map .equity).mapError oerr

/-! ## Orders, fills and lots -/

structure Order where
  orderId : String
  accountId : String
  instrument : Instrument
  orderType : OrderType
  side : Side
  quantity : Money
  commandId : String
  createdAt : DateTime
  limitPrice : Option Money
  stopPrice : Option Money
  trailAmount : Option Money
  tif : Tif
  state : OrderState
  parentOrderId : Option String
  ocoGroup : Option String
deriving DecidableEq

/-- Dataclass `==`: creation times are one instant. -/
def Order.same (o p : Order) : Bool :=
  o.orderId == p.orderId && o.accountId == p.accountId && o.instrument.same p.instrument &&
    o.orderType == p.orderType && o.side == p.side && o.quantity == p.quantity &&
    o.commandId == p.commandId && o.createdAt.same p.createdAt && o.limitPrice == p.limitPrice &&
    o.stopPrice == p.stopPrice && o.trailAmount == p.trailAmount && o.tif == p.tif &&
    o.state == p.state && o.parentOrderId == p.parentOrderId && o.ocoGroup == p.ocoGroup

inductive VenueEnv where
  | sim
  | paper
  | live
deriving DecidableEq, Repr

def VenueEnv.value : VenueEnv → String
  | .sim => "sim"
  | .paper => "paper"
  | .live => "live"

structure Fill where
  fillId : String
  orderId : String
  accountId : String
  instrument : Instrument
  quantity : Money
  price : Money
  venueEnv : VenueEnv
  filledAt : DateTime
  side : Side
  fee : Money
  legId : Option String
  venueOrderId : Option String
  venueExecutionId : Option String
  ids_ne : fillId ≠ "" ∧ orderId ≠ "" ∧ accountId ≠ ""
  quantity_pos : 0 < quantity.mantissa
  price_pos : 0 < price.mantissa
deriving DecidableEq

structure Lot where
  lotId : String
  quantity : Money
  costBasis : Money
  acquiredAt : DateTime
  side : Side
  lotId_ne : lotId ≠ ""
  quantity_pos : 0 < quantity.mantissa
  costBasis_pos : 0 < costBasis.mantissa
deriving DecidableEq

/-- `Lot.__post_init__`. -/
def makeLot (lotId : String) (quantity costBasis : Money) (acquiredAt : DateTime) (side : Side) :
    R Lot :=
  if hi : lotId = "" then err .value "lot_id must be non-empty"
  else if hq : quantity.mantissa ≤ 0 then
    err .value s!"Lot quantity must be positive, got {quantity.canon}"
  else if hc : costBasis.mantissa ≤ 0 then
    err .value s!"Lot cost_basis must be positive, got {costBasis.canon}"
  else .ok ⟨lotId, quantity, costBasis, acquiredAt, side, hi, not_le.mp hq, not_le.mp hc⟩

/-! ## Payloads -/

structure OrderStateChange where
  orderId : String
  reason : Option String
  venueOrderId : Option String
deriving DecidableEq

structure OrdersCreated where
  orders : List Order
  fingerprint : String
  reason : String
deriving DecidableEq

structure OrderUpdated where
  order : Order
  reason : String
  venueOrderId : Option String
deriving DecidableEq

structure EmulatedOrderState where
  orderId : String
  observedPrice : Option Money
  extreme : Option Money
  stopPrice : Option Money
  triggered : Bool
  reason : String
deriving DecidableEq

structure RiskControlChange where
  controlId : String
  enabled : Bool
deriving DecidableEq

structure CashFlow where
  amount : Money
deriving DecidableEq

structure Mark where
  instrument : Instrument
  price : Money
deriving DecidableEq

structure VenueReconcile where
  venue : String
  asOf : DateTime
  reconciled : Bool
  drift : List String
  note : Option String
  venue_ne : venue ≠ ""
  drift_iff : reconciled = true ↔ drift = []
deriving DecidableEq

structure VenueHaltCleared where
  venue : String
  atTime : DateTime
  reason : String
  reconcileSeq : Int
deriving DecidableEq

structure OptionLifecycle where
  accountId : String
  contract : OptionContract
  quantity : Money
  held : Side
  underlyingPrice : Money
  asOf : DateTime
  early : Bool
  quantity_pos : 0 < quantity.mantissa
  quantity_whole : quantity.isIntegral = true
  underlyingPrice_pos : 0 < underlyingPrice.mantissa
deriving DecidableEq

structure MirrorAllocation where
  strategyOrderId : String
  strategyAccount : String
  quantity : Money
  quantity_pos : 0 < quantity.mantissa
  quantity_whole : quantity.isIntegral = true
deriving DecidableEq

structure MirrorQueued where
  venue : String
  ticketKey : String
  instrument : Instrument
  side : Side
  quantity : Money
  orderType : OrderType
  limitPrice : Option Money
  tif : Tif
  allocations : List MirrorAllocation
  atTime : DateTime
deriving DecidableEq

/-- Dataclass `==`: the times are one instant. -/
def MirrorQueued.same (q r : MirrorQueued) : Bool :=
  q.venue == r.venue && q.ticketKey == r.ticketKey && q.instrument.same r.instrument &&
    q.side == r.side && q.quantity == r.quantity && q.orderType == r.orderType &&
    q.limitPrice == r.limitPrice && q.tif == r.tif && q.allocations == r.allocations &&
    q.atTime.same r.atTime

structure MirrorRefused where
  venue : String
  strategyOrderId : String
  strategyAccount : String
  reason : String
  atTime : DateTime
deriving DecidableEq

inductive AckStatus where
  | accepted
  | rejected
  | pending
deriving DecidableEq, Repr

def AckStatus.value : AckStatus → String
  | .accepted => "ACCEPTED"
  | .rejected => "REJECTED"
  | .pending => "PENDING"

structure MirrorAck where
  venue : String
  ticketKey : String
  status : AckStatus
  message : String
  atTime : DateTime
  venueOrderId : Option String
  bookStatus : Option OrderState
deriving DecidableEq

structure MirrorFill where
  venue : String
  ticketKey : String
  venueOrderId : String
  filled : Money
  avgPrice : Money
  atTime : DateTime
deriving DecidableEq

/-- The payloads an event may carry. -/
inductive Obj where
  | signal
  | riskVerdict (accepted : Bool)
  | ordersCreated (c : OrdersCreated)
  | riskControl (c : RiskControlChange)
  | order (o : Order)
  | orderUpdated (u : OrderUpdated)
  | stateChange (c : OrderStateChange)
  | emulated (e : EmulatedOrderState)
  | fill (f : Fill)
  | cashFlow (c : CashFlow)
  | mark (m : Mark)
  | reconcile (n : VenueReconcile)
  | haltCleared (c : VenueHaltCleared)
  | eodRun (accountId : String)
  | lifecycle (n : OptionLifecycle)
  | corp
  | mQueued (q : MirrorQueued)
  | mRefused (r : MirrorRefused)
  | mAck (a : MirrorAck)
  | mFill (f : MirrorFill)
deriving DecidableEq

/-- The class name (and codec tag). -/
def Obj.tag : Obj → String
  | .signal => "Signal"
  | .riskVerdict _ => "RiskVerdict"
  | .ordersCreated _ => "OrdersCreated"
  | .riskControl _ => "RiskControlChange"
  | .order _ => "Order"
  | .orderUpdated _ => "OrderUpdated"
  | .stateChange _ => "OrderStateChange"
  | .emulated _ => "EmulatedOrderState"
  | .fill _ => "Fill"
  | .cashFlow _ => "CashFlow"
  | .mark _ => "Mark"
  | .reconcile _ => "VenueReconcile"
  | .haltCleared _ => "VenueHaltCleared"
  | .eodRun _ => "EodRun"
  | .lifecycle _ => "OptionLifecycle"
  | .corp => "CorporateAction"
  | .mQueued _ => "MirrorQueued"
  | .mRefused _ => "MirrorRefused"
  | .mAck _ => "MirrorAck"
  | .mFill _ => "MirrorFill"

/-- The payload class an event kind must carry. -/
def expectedPayload : EventKind → String
  | .signalSeen => "Signal"
  | .riskVerdict => "RiskVerdict"
  | .ordersCreated => "OrdersCreated"
  | .riskControl => "RiskControlChange"
  | .orderSubmitted => "Order"
  | .orderUpdated => "OrderUpdated"
  | .orderPending | .orderAccepted | .orderRejected | .orderCancelled | .orderRefused
  | .orderExpired => "OrderStateChange"
  | .orderEmulationUpdated => "EmulatedOrderState"
  | .fill => "Fill"
  | .assignment | .exercise | .expiry => "OptionLifecycle"
  | .corporateAction => "CorporateAction"
  | .cashFlow => "CashFlow"
  | .mark => "Mark"
  | .venueReconcile => "VenueReconcile"
  | .venueHaltCleared => "VenueHaltCleared"
  | .eodRun => "EodRun"
  | .mirrorQueued => "MirrorQueued"
  | .mirrorRefused => "MirrorRefused"
  | .mirrorAck => "MirrorAck"
  | .mirrorFill => "MirrorFill"

/-! ## What the constructors check -/

/-- The prices an order type needs and the ones it cannot have. -/
def checkPriceShape (t : OrderType) (limit stop trail : Option Money) : R Unit :=
  match t with
  | .market => do
    refuseIf limit.isSome .value "MARKET order cannot have a limit_price"
    refuseIf stop.isSome .value "MARKET order cannot have a stop_price"
    refuseIf trail.isSome .value "MARKET order cannot have a trail_amount"
  | .limit => do
    refuseIf limit.isNone .value "LIMIT order must have a limit_price"
    refuseIf stop.isSome .value "LIMIT order cannot have a stop_price"
    refuseIf trail.isSome .value "LIMIT order cannot have a trail_amount"
  | .stop => do
    refuseIf stop.isNone .value "STOP order must have a stop_price"
    refuseIf limit.isSome .value "STOP order cannot have a limit_price"
    refuseIf trail.isSome .value "STOP order cannot have a trail_amount"
  | .stopLimit => do
    refuseIf (limit.isNone || stop.isNone) .value
      "STOP_LIMIT order must have both limit_price and stop_price"
    refuseIf trail.isSome .value "STOP_LIMIT order cannot have a trail_amount"
  | .trail => do
    refuseIf (trail.all (·.le .zero)) .value "TRAIL order must have a positive trail_amount (I5)"
    refuseIf limit.isSome .value "TRAIL order cannot have a limit_price"
    refuseIf stop.isSome .value "TRAIL order cannot have a stop_price"

/-- `validate_order_prices`. -/
def validateOrderPrices (t : OrderType) (limit stop trail : Option Money) : R Unit := do
  checkPriceShape t limit stop trail
  let limitText := limit.elim "" Money.canon
  let stopText := stop.elim "" Money.canon
  refuseIf (limit.any (·.le .zero)) .value s!"limit_price must be positive, got {limitText}"
  refuseIf (stop.any (·.le .zero)) .value s!"stop_price must be positive, got {stopText}"

/-- `Order.__post_init__`. -/
def checkOrder (o : Order) : R Unit := do
  refuseIf (o.orderId = "") .value "order_id must be non-empty"
  refuseIf (o.accountId = "") .value "account_id must be non-empty"
  refuseIf (o.commandId = "") .value "command_id must be non-empty (I3)"
  refuseIf (o.quantity.le .zero) .value
    s!"Order quantity must be positive, got {o.quantity.canon} (I5)"
  validateOrderPrices o.orderType o.limitPrice o.stopPrice o.trailAmount

def checkStateChange (c : OrderStateChange) : R Unit := do
  refuseIf (c.orderId = "") .payload "OrderStateChange.order_id must be non-empty"
  refuseIf (c.reason = some "") .payload
    "OrderStateChange.reason must be non-empty when provided"

def checkOrdersCreated (c : OrdersCreated) : R Unit := do
  refuseIf (c.orders = []) .payload "OrdersCreated.orders must not be empty"
  refuseIf (c.fingerprint = "") .payload "OrdersCreated.fingerprint must be non-empty"
  refuseIf (c.reason = "") .payload "OrdersCreated.reason must be non-empty"
  refuseIf (¬ (c.orders.map (·.orderId)).Nodup) .payload
    "OrdersCreated.order_id values must be unique"
  refuseIf (c.orders.any fun o => c.orders.any fun p => o.accountId ≠ p.accountId) .payload
    "OrdersCreated orders must belong to one account"

def checkOrderUpdated (u : OrderUpdated) : R Unit :=
  refuseIf (u.reason = "") .payload "OrderUpdated.reason must be non-empty"

/-- The `EmulatedOrderState` checks. -/
def checkEmulated (e : EmulatedOrderState) : R Unit := do
  refuseIf (e.orderId = "") .payload "EmulatedOrderState.order_id must be non-empty"
  refuseIf (e.observedPrice.any (·.le .zero)) .payload
    "EmulatedOrderState.observed_price must be positive"
  refuseIf (e.extreme.any (·.le .zero)) .payload "EmulatedOrderState.extreme must be positive"
  refuseIf (e.stopPrice.any (·.le .zero)) .payload
    "EmulatedOrderState.stop_price must be positive"
  refuseIf (e.reason = "") .payload "EmulatedOrderState.reason must be non-empty"

/-- Only a two-leg one-to-one option vertical is mirrored as a combo. -/
def requireVertical (legs : List ComboLeg) (name : String) : R Unit :=
  match legs with
  | [⟨.option a, ra, sa, _⟩, ⟨.option b, rb, sb, _⟩] =>
    refuseIfM (a.underlying ≠ b.underlying ∨ a.expiry ≠ b.expiry ∨ a.right ≠ b.right ∨
        a.multiplier ≠ b.multiplier ∨ a.strike = b.strike ∨ sa = sb ∨ ra ≠ rb) .payload do
      let symbol ← (Instrument.combo legs).symbol
      pure s!"{name}: {symbol} is not a 1:1 vertical"
  | _ =>
    refuseIfM True .payload do
      let symbol ← (Instrument.combo legs).symbol
      pure s!"{name}: a mirrored combo is a 2-leg option vertical, got {symbol}"

def checkMirrorInstrument : Instrument → R Unit
  | .combo legs => requireVertical legs "MirrorQueued.instrument"
  | .single (.future _) => err .payload "MirrorQueued.instrument: futures not supported in mirror"
  | .single _ => .ok ()

/-- A whole number of contracts, above zero. -/
def requireWhole (q : Money) (name : String) : R Unit :=
  refuseIf (!q.isIntegral || q.le .zero) .payload
    s!"{name} must be a positive whole number of contracts, got {q.canon} (I5)"

/-- A limit ticket has a positive limit price, a market ticket none. -/
def checkMirrorPrice (q : MirrorQueued) : R Unit := do
  refuseIf (q.orderType ≠ .market ∧ q.orderType ≠ .limit) .payload
    "MirrorQueued.order_type must be MARKET or LIMIT"
  refuseIf (q.tif ≠ .day ∧ q.tif ≠ .gtc) .payload "MirrorQueued.tif must be DAY or GTC"
  refuseIf (q.orderType = .limit ∧ q.limitPrice.isNone) .payload
    "MirrorQueued: a LIMIT ticket needs a limit_price (I5)"
  refuseIf (q.orderType = .limit ∧ q.limitPrice.any (·.le .zero)) .payload
    "MirrorQueued.limit_price must be positive (I5)"
  refuseIf (q.orderType = .market ∧ q.limitPrice.isSome) .payload
    "MirrorQueued: a MARKET ticket cannot carry a limit_price"

def checkMirrorQueued (q : MirrorQueued) : R Unit := do
  refuseIf (q.venue = "") .payload "MirrorQueued.venue must be non-empty"
  refuseIf (q.ticketKey = "") .payload "MirrorQueued.ticket_key must be non-empty (I3)"
  checkMirrorInstrument q.instrument
  requireWhole q.quantity "MirrorQueued.quantity"
  checkMirrorPrice q
  refuseIf (q.allocations = []) .payload
    "MirrorQueued.allocations must be MirrorAllocations, at least one (§4.4)"
  refuseIf (¬ (q.allocations.map (·.strategyOrderId)).Nodup) .payload
    "MirrorQueued allocates one strategy order twice (I3)"
  let total ← (q.allocations.foldlM (fun t a => Money.add t a.quantity) Money.zero).mapError derr
  refuseIf (total ≠ q.quantity) .payload
    s!"MirrorQueued allocations total {total.canon} but the ticket is {q.quantity.canon} (I11)"

def checkMirrorAck (a : MirrorAck) : R Unit := do
  refuseIf (a.venue = "") .payload "MirrorAck.venue must be non-empty"
  refuseIf (a.ticketKey = "") .payload "MirrorAck.ticket_key must be non-empty"
  refuseIf (a.message = "") .payload "MirrorAck.message must be non-empty (I11)"
  let id := a.venueOrderId.getD ""
  refuseIf (a.venueOrderId.any (!pyIsDigit ·)) .payload
    s!"MirrorAck.venue_order_id must be an all-digit id, got '{id}'"

def checkMirrorRefused (r : MirrorRefused) : R Unit := do
  refuseIf (r.venue = "") .payload "MirrorRefused.venue must be non-empty"
  refuseIf (r.strategyOrderId = "") .payload "MirrorRefused.strategy_order_id must be non-empty"
  refuseIf (r.strategyAccount = "") .payload "MirrorRefused.strategy_account must be non-empty"
  refuseIf (r.reason = "") .payload "MirrorRefused.reason must be non-empty (I11)"

def checkMirrorFill (f : MirrorFill) : R Unit := do
  refuseIf (f.venue = "") .payload "MirrorFill.venue must be non-empty"
  refuseIf (f.ticketKey = "") .payload "MirrorFill.ticket_key must be non-empty"
  refuseIf (!pyIsDigit f.venueOrderId) .payload "MirrorFill.venue_order_id must be an all-digit id"
  requireWhole f.filled "MirrorFill.filled"
  refuseIf (f.avgPrice.le .zero) .payload
    s!"MirrorFill.avg_price must be positive, got {f.avgPrice.canon} (I5)"

/-- The payload's own constructor ran: every check its type does not already carry. -/
def checkPayload : Obj → R Unit
  | .order o => checkOrder o
  | .ordersCreated c => do
    c.orders.forM checkOrder
    checkOrdersCreated c
  | .orderUpdated u => do
    checkOrder u.order
    checkOrderUpdated u
  | .stateChange c => checkStateChange c
  | .emulated e => checkEmulated e
  | .mQueued q => checkMirrorQueued q
  | .mRefused r => checkMirrorRefused r
  | .mAck a => checkMirrorAck a
  | .mFill f => checkMirrorFill f
  | _ => .ok ()

/-! ## Events -/

def schemaVersion : Int := 1

def mirrorAccountPrefix : String := "__venue__:"

def mirrorAccount (venue : String) : R String :=
  if venue = "" then err .payload "a mirror venue must be non-empty"
  else .ok (mirrorAccountPrefix ++ venue)

/-- The fields of an event before its own checks have run. -/
structure EventFields where
  account : String
  kind : EventKind
  payload : Obj
  tsUtc : DateTime
  commandId : Option String
  schemaVersion : Int
  seq : Option Int
deriving DecidableEq

/-- The account a payload names, where it names one. -/
def Obj.accountId? : Obj → Option String
  | .order o => some o.accountId
  | .fill f => some f.accountId
  | .lifecycle n => some n.accountId
  | .eodRun a => some a
  | .orderUpdated u => some u.order.accountId
  | _ => none

/-- The venue a mirror payload names. -/
def Obj.venue? : Obj → Option String
  | .mQueued q => some q.venue
  | .mRefused r => some r.venue
  | .mAck a => some a.venue
  | .mFill f => some f.venue
  | _ => none

/-- A payload that names an account is filed under it. -/
def checkAccount (e : EventFields) : R Unit :=
  match e.payload.accountId? with
  | none => .ok ()
  | some a =>
    refuseIf (a ≠ e.account) .payload
      (s!"{e.kind.value} payload belongs to account '{a}' but the event is filed" ++
        s!" under '{e.account}' (I8)")

/-- A mirror payload is filed under its venue's account. -/
def checkMirrorAccount (e : EventFields) : R Unit :=
  match e.payload.venue? with
  | none => .ok ()
  | some v => do
    let want ← mirrorAccount v
    refuseIf (e.account ≠ want) .payload
      s!"{e.kind.value} for venue '{v}' must be filed under '{want}', not '{e.account}' (I8)"

def Obj.createdOrders : Obj → List Order
  | .ordersCreated c => c.orders
  | _ => []

/-- The `Event.__post_init__` checks, in their order. -/
def checkEvent (e : EventFields) : R Unit := do
  refuseIf (e.account = "") .payload "Event.account must be non-empty"
  refuseIf (e.commandId = some "") .payload
    "Event.command_id must be non-empty when provided (I3)"
  refuseIf (e.schemaVersion ≤ 0) .payload
    s!"Event.schema_version must be a positive int, got {e.schemaVersion}"
  refuseIf (e.schemaVersion > schemaVersion) .payload
    (s!"Event.schema_version {e.schemaVersion} is newer than this engine understands" ++
      s!" ({schemaVersion}); refusing rather than mis-reading it (I5)")
  refuseIf (e.seq.any (· ≤ 0)) .payload
    s!"Event.seq must be a positive int, got {e.seq.getD 0}"
  refuseIf (e.payload.tag ≠ expectedPayload e.kind) .payload
    s!"{e.kind.value} payload must be {expectedPayload e.kind}, got {e.payload.tag}"
  checkAccount e
  checkMirrorAccount e
  refuseIf (e.payload.createdOrders.any (·.accountId ≠ e.account)) .payload
    s!"{e.kind.value} contains orders for a different account (I8)"

/-- An event: its payload was built and its own checks have already run. -/
structure Event extends EventFields where
  built : checkPayload payload = .ok ()
  checked : checkEvent toEventFields = .ok ()
deriving DecidableEq

/-- Build an event from its fields, refusing what a check refuses. -/
def makeEvent (e : EventFields) : R Event :=
  match hb : checkPayload e.payload with
  | .error x => .error x
  | .ok () =>
    match h : checkEvent e with
    | .error x => .error x
    | .ok () => .ok ⟨e, hb, h⟩

theorem makeEvent_fields {e : EventFields} {ev : Event} (h : makeEvent e = .ok ev) :
    ev.toEventFields = e := by
  unfold makeEvent at h
  split at h
  · cases h
  · split at h
    · cases h
    · cases h; rfl

end TradeEngine
