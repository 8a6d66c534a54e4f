import TradeEngine.Sim.Session
import TradeEngine.Oms.Structures

/-!
# The chain-snapshot option venue

Options, combos of options and shares are matched against one chain snapshot at a time. As for bars, a
call that ends in a refusal leaves what it had done by then.
-/

namespace TradeEngine.Sim.Snapshot

open Lib Lib.Prog Oms

structure Quote where
  mid : Money
  spread : Money
  asOf : Ts

/-- The parts of a chain snapshot the venue reads; a quote is looked up by its OCC symbol. -/
structure Snap where
  underlying : String
  asOf : Ts
  underlyingPrice : Money
  quote : String → R (Option Quote)

structure SFill where
  fillId : String
  orderId : String
  instr : Instrument
  quantity : Money
  price : Money
  filledAt : Ts
  side : Side
  fee : Money
  legId : Option String
deriving DecidableEq

structure Working where
  order : VOrder
  state : OrderState
  filled : Money
  updatedAt : Ts
deriving DecidableEq

/-- `stale` is the age limit of a quote: whether an age in microseconds is over it. -/
structure Venue where
  accountId : String
  fraction : Money
  fee : Money
  slippage : Money
  stale : Int → Bool
  connected : Bool
  orders : OMap String Working
  fills : List SFill
  fillCounts : OMap String Nat
  positions : OMap Instrument Money
  seen : OMap String Ts

abbrev Act := Prog LErr Venue

/-- The tick prices are rounded to, `10^-4`. -/
def tick : Int := -4

/-! ## Instruments -/

/-- The underlying whose chain snapshot prices a contract. -/
def contractUnderlying : Contract → R String
  | .equity s => .ok s
  | .option c => Oms.underlyingOf c
  | .future _ => err .unsupported "futures not supported in snapshot venue"

def underlyingOf : Instrument → R String
  | .single c => contractUnderlying c
  | .combo legs => do
    let found := (← legs.mapM (contractUnderlying ·.contract)).dedup
    match found with
    | [u] => pure u
    | _ =>
      let shown := ", ".intercalate ((found.insertionSort fun x y => (compare x y != .gt) = true).map pyRepr)
      let symbol ← (Instrument.combo legs).symbol
      err .value s!"Combo {symbol} spans underlyings [{shown}]"

def isCombo (o : VOrder) : Bool :=
  match o.instr with
  | .combo _ => true
  | .single _ => false

def legs (o : VOrder) : List ComboLeg := legsOf o.instr o.side

def multiplierOf : Contract → Int
  | .option c => c.multiplier
  | _ => 1

/-- Option points: a combo's net is quoted per unit of its option multiplier. -/
def multiplier (o : VOrder) : R Int :=
  let found : List Int := match o.instr with
    | .combo legs => (legs.filterMap fun l => match l.contract with
      | .option c => some c.multiplier
      | _ => none).dedup
    | .single _ => []
  match found with
  | [m] => pure m
  | _ =>
    let shown := ", ".intercalate ((found.insertionSort (· ≤ ·)).map toString)
    err .snapshot s!"Combo '{o.id}' has option multipliers [{shown}] (I6)"

/-! ## Prices -/

variable (A : Arith)

/-- What one side of a contract trades at in the snapshot; none if it cannot be priced. -/
def modelPrice (v : Venue) (s : Snap) (c : Contract) (side : Side) : R (Option Money) :=
  match c with
  | .equity symbol =>
    if symbol ≠ s.underlying then pure none
    else do
      let moved ← Ops.div A (← Ops.mul A s.underlyingPrice v.slippage) tenThousand
      some <$> match side with
        | .buy => Ops.add A s.underlyingPrice moved
        | .sell => Ops.sub A s.underlyingPrice moved
  | .option c => do
    match ← s.quote (← c.occ.mapError oerr) with
    | none => pure none
    | some q =>
      let age : Int := (s.asOf.key.1 - q.asOf.key.1) * 1000000 + ((s.asOf.key.2 : Int) - q.asOf.key.2)
      if v.stale age then pure none
      else
        let shade ← Ops.mul A v.fraction q.spread
        let price ← match side with
          | .buy => Ops.add A q.mid shade
          | .sell => Ops.sub A q.mid shade
        pure (if 0 < price.mantissa then some price else none)
  | .future _ => err .unsupported "futures not supported in snapshot venue"

def legPrices (v : Venue) (s : Snap) : List ComboLeg → R (Option (List Money))
  | [] => pure (some [])
  | leg :: rest => do
    match ← modelPrice A v s leg.contract leg.side with
    | none => pure none
    | some p => do pure ((← legPrices v s rest).map (p :: ·))

def modelPrices (v : Venue) (s : Snap) (o : VOrder) : R (Option (List Money)) := legPrices A v s (legs o)

/-- What a combo's legs come to, per unit of its multiplier. -/
def net (shaded : Side) (scale : Money) (priced : List (ComboLeg × Money)) : R Money := do
  let total ← priced.foldlM (fun total x => do
    let sign : Int := if x.1.side = shaded then 1 else -1
    let term ← Ops.mulI A (← Ops.mul A (← d (Money.fromI128 (sign * x.1.ratio))) x.2) (multiplierOf x.1.contract)
    Ops.add A total term) Money.zero
  Ops.div A total scale

/-- What the legs that keep their model prices come to. -/
def kept (shaded : Side) (scale : Money) (priced : List (ComboLeg × Money)) : R Money := do
  let total ← priced.foldlM (fun total x =>
    if x.1.side ≠ shaded then do
      let term ← Ops.mulI A (← Ops.mul A (← d (Money.fromI128 x.1.ratio)) x.2) (multiplierOf x.1.contract)
      Ops.add A total term
    else pure total) Money.zero
  Ops.div A total scale

/-- The place of the largest of the shaded legs; a later one only when it is strictly larger. -/
def largest (shaded : Side) (priced : List (ComboLeg × Money)) : Option Nat :=
  (priced.zipIdx.foldl (fun best x =>
    if x.1.1.side ≠ shaded then best
    else match best with
      | none => some (x.2, x.1.2)
      | some (i, p) => some (if x.1.2.gt p then (x.2, x.1.2) else (i, p)))
    (none : Option (Nat × Money))).map (·.1)

/-- The rounding residue goes on the largest shaded leg, so the net is the limit. -/
def settleResidue (o : VOrder) (scale residue : Money) (filled : List Money) : R (List Money) :=
  if residue.isZero then pure filled
  else match largest o.side ((legs o).zip filled) with
    | none => err .value "max() iterable argument is empty"
    | some i => match (legs o)[i]?, filled[i]? with
      | some leg, some price => do
        let points ← Ops.mul A residue scale
        let step ← Ops.div A points (← d (Money.fromI128 (leg.ratio * multiplierOf leg.contract)))
        pure (filled.set i (← Ops.add A price step))
      | _, _ => pure filled

/-- A combo's limit order: the favourable legs are shaded until the net is the limit. -/
def comboPrices (o : VOrder) (limit : Money) (prices : List Money) : R (Option (List Money)) := do
  let scale ← d (Money.fromI128 (← multiplier o))
  let priced := (legs o).zip prices
  let model ← net A o.side scale priced
  let out := match o.side with
    | .sell => model.lt limit
    | .buy => model.gt limit
  if out then pure none
  else
    let kept ← kept A o.side scale priced
    let factor ← Ops.div A (← Ops.add A limit kept) (← Ops.add A model kept)
    let filled ← priced.mapM fun x => do
      d (quantize (← (if x.1.side = o.side then Ops.mul A x.2 factor else pure x.2 : R Money)) tick)
    let residue ← Ops.sub A limit (← net A o.side scale ((legs o).zip filled))
    let filled ← settleResidue A o scale residue filled
    pure (if filled.any (·.mantissa ≤ 0) then none else some filled)

/-- The price each leg fills at, or none if the order does not fill. -/
def fillPrices (o : VOrder) (prices : List Money) : R (Option (List Money)) :=
  if o.otype = .market then do pure (some (← prices.mapM fun p => d (quantize p tick)))
  else match o.limit with
    | none => err .snapshot s!"LIMIT order '{o.id}' has no limit price"
    | some limit =>
      if isCombo o then comboPrices A o limit prices
      else match prices with
        | [] => pure none
        | price :: _ =>
          let through := match o.side with
            | .sell => price.ge limit
            | .buy => price.le limit
          pure (if through then some [limit] else none)

/-! ## The book -/

def Venue.setOrder (v : Venue) (id : String) (w : Working) : Venue := { v with orders := v.orders.put id w }

def Venue.require (v : Venue) (id : String) : R Working :=
  match v.orders.get id with
  | some w => .ok w
  | none => err .snapshot s!"Unknown SnapshotVenue order '{id}'"

def Venue.requireConnected (v : Venue) : R Unit :=
  refuseIf (v.connected = false) .snapshot "Call connect() before using SnapshotVenue"

def Venue.orderIds (v : Venue) : List String := v.orders.entries.map (·.1)

def validate (v : Venue) (o : VOrder) : R Unit := do
  refuseIf (o.otype ≠ .market ∧ o.otype ≠ .limit) .value
    s!"SnapshotVenue does not support {o.otype.value} orders"
  refuseIf (o.tif ≠ .day ∧ o.tif ≠ .gtc) .value
    s!"SnapshotVenue does not support time in force {o.tif.value}"
  refuseIf (¬ (o.allocs.map (·.account) = [v.accountId])) .value
    "SnapshotVenue requires one allocation to its own account"
  match o.instr with
  | .combo legs => do
    refuseIf (legs.any (fun l => !isOption l.contract) = true) .value
      "SnapshotVenue combos are options only; trade the shares on their own"
    discard (multiplier o)
  | .single _ => pure ()
  discard (underlyingOf o.instr)

/-- `SnapshotVenue.__init__`; a missing decimal was no `Decimal`, a missing age no positive number. -/
def new (accountId : String) (fraction fee slippage : Option Money) (stale : Option (Int → Bool)) : R Venue := do
  refuseIf (accountId = "") .value "account_id must be non-empty"
  let check (name : String) (x : Option Money) : R Money :=
    match x.filter (!·.isNegative) with
    | some x => .ok x
    | none => err .value s!"{name} must be a finite, non-negative Decimal"
  let fraction ← check "fill_fraction" fraction
  let fee ← check "fee_per_contract" fee
  let slippage ← check "equity_slippage_bps" slippage
  match stale with
  | none => err .value "max_quote_age_seconds must be positive"
  | some stale => do
    refuseIf (fraction.gt half = true) .value "fill_fraction above 0.5 would trade outside the quote"
    pure ⟨accountId, fraction, fee, slippage, stale, false, .empty, [], .empty, .empty, .empty⟩

/-! ## Expiry -/

variable (cal : Calendars)

/-- A DAY order lapses at its session's close, but only once a snapshot of its underlying from that
session has been processed: only a snapshot proves that it did not fill. -/
def expireOne (now : Ts) (v : Venue) (id : String) : R Venue := do
  let w ← v.require id
  if working w.state = false ∨ w.order.tif ≠ .day then pure v
  else
    let close ← cal.sessionClose (← cal.daySession w.order.submittedAt)
    match v.seen.get (← underlyingOf w.order.instr) with
    | none => pure v
    | some seen =>
      if now.ge close && w.order.submittedAt.le seen && seen.le close then
        pure (v.setOrder id { w with state := .expired, updatedAt := close })
      else pure v

namespace Act

def expireDue (now : R Ts) : Act Unit := do
  let at' ← lift now
  forEach (fun id => change (expireOne cal at' · id)) (← gets Venue.orderIds)

/-! ## Filling -/

def updatePosition (c : Contract) (moved : Money) (v : Venue) : R Venue := do
  let qty ← Ops.add A ((v.positions.get c.hk).getD .zero) moved
  pure { v with positions := v.positions.insert c.hk (.single c) qty }

/-- One leg: numbered, checked, booked, then put on the position. -/
def fillLeg (o : VOrder) (units : Money) (at' : Ts) (index : Nat) (leg : ComboLeg) (price : Money) : Act Nat := do
  let quantity ← lift (Ops.mulI A units leg.ratio)
  let n := ((← get).fillCounts.get o.id).getD 0 + 1
  modify fun v => { v with fillCounts := v.fillCounts.put o.id n }
  let fee ← read fun v => if isOption leg.contract then Ops.mul A v.fee quantity else pure .zero
  lift (refuseIf (quantity.mantissa ≤ 0) .value
    s!"VenueFill quantity must be strictly positive, got {quantity.canon}")
  lift (refuseIf (price.mantissa ≤ 0) .value
    s!"VenueFill price must be strictly positive, got {price.canon} (I5)")
  let moved ← lift (if leg.side = .buy then pure quantity else Ops.neg A quantity)
  modify fun v => { v with fills := v.fills ++ [⟨o.id ++ ":fill:" ++ toString n, o.id, .single leg.contract,
    quantity, price, at', leg.side, fee, if isCombo o then some (toString index) else none⟩] }
  let place ← gets fun v => v.fills.length - 1
  change (updatePosition A leg.contract moved)
  pure place

def fillLegs (o : VOrder) (units : Money) (at' : Ts) : Nat → List (ComboLeg × Money) → Act (List Nat)
  | _, [] => pure []
  | index, (leg, price) :: rest => do
    let place ← fillLeg A o units at' index leg price
    pure (place :: (← fillLegs o units at' (index + 1) rest))

def fill (id : String) (prices : List Money) (at' : Ts) : Act (List Nat) := do
  let w ← read (·.require id)
  let units ← lift (Ops.sub A w.order.quantity w.filled)
  let made ← fillLegs A w.order units at' 0 ((legs w.order).zip prices)
  modify (·.setOrder id { w with filled := w.order.quantity, state := .filled, updatedAt := at' })
  pure made

/-! ## The calls -/

def ack (id : String) (status : AckStatus) (msg : Option String) (now : R Ts) : Act Ack := do
  pure ⟨id, status, ← lift now, msg⟩

def connect (clock : Clock) : Act Ts := do
  modify fun v => { v with connected := true }
  lift (clock 0)

def submit (o : VOrder) (clock : Clock) : Act Ack := do
  read (·.requireConnected)
  expireDue cal (clock 0)
  read (validate · o)
  match ← gets (·.orders.get o.id) with
  | some existing => do
    lift (refuseIf (existing.order.same o = false) .snapshot
      s!"venue_order_id '{o.id}' was reused with different terms")
    if existing.state = .cancelled ∨ existing.state = .rejected then
      ack o.id .rejected (some s!"Order is {existing.state.value}") (clock 1)
    else ack o.id .accepted none (clock 1)
  | none => do
    let at' ← lift (clock 1)
    modify (·.setOrder o.id ⟨o, .accepted, .zero, at'⟩)
    ack o.id .accepted none (clock 2)

def cancel (id : String) (clock : Clock) : Act Ack := do
  expireDue cal (clock 0)
  let w ← read (·.require id)
  if w.state = .cancelled then ack id .accepted none (clock 1)
  else if working w.state = false then ack id .rejected (some s!"Order is {w.state.value}") (clock 1)
  else do
    modify (·.setOrder id { w with state := .cancelled })
    let at' ← lift (clock 1)
    modify (·.setOrder id { w with state := .cancelled, updatedAt := at' })
    ack id .accepted none (clock 2)

def replace (id : String) (clock : Clock) : Act Ack := do
  discard (read (·.require id))
  ack id .rejected (some "SnapshotVenue does not replace orders") (clock 0)

/-! ## Queries -/

/-- A query's `since`: naive, it refuses once it is compared with something. -/
def since (from' : Option Ts) (t : Ts) : R Bool :=
  match from' with
  | some s => pure (t.ge s)
  | none => err .typeError "can't compare offset-naive and offset-aware datetimes"

def orderRow (id : String) (w : Working) : R Sim.Act.OrderRow := do
  pure ⟨id, w.state, w.filled, ← Ops.sub A w.order.quantity w.filled, w.updatedAt⟩

def rowsSince (from' : Option Ts) (v : Venue) : R (List Sim.Act.OrderRow) :=
  (v.orders.entries.insertionSort fun x y => (compare x.1 y.1 != .gt) = true).filterMapM fun e => do
    if ← since from' e.2.updatedAt then some <$> orderRow A e.1 e.2 else pure none

def ordersSince (from' : R (Option Ts)) (clock : Clock) : Act (List Sim.Act.OrderRow) := do
  let from' ← lift from'
  expireDue cal (clock 0)
  read (rowsSince A from')

def fillsSince (from' : R (Option Ts)) (clock : Clock) : Act (List SFill) := do
  let from' ← lift from'
  expireDue cal (clock 0)
  read fun v => v.fills.filterMapM fun f => do
    pure (if ← since from' f.filledAt then some f else none)

def positions (clock : Clock) : Act (Ts × List (Instrument × Money)) := do
  let at' ← lift (clock 0)
  read fun v => do
    let keyed ← v.positions.entries.mapM fun p => do pure (← p.1.symbol, p)
    let sorted := keyed.insertionSort fun x y => (compare x.1 y.1 != .gt) = true
    pure (at', (sorted.map (·.2)).filter fun p => !p.2.isZero)

/-! ## Snapshots -/

/-- Working orders in the order they came, ids breaking ties. -/
def queue (v : Venue) : List String :=
  (v.orders.entries.insertionSort fun x y =>
    x.2.order.submittedAt.lt y.2.order.submittedAt = true ∨
      x.2.order.submittedAt.eq y.2.order.submittedAt = true ∧ (compare x.1 y.1 != .gt) = true).map (·.1)

/-- Whether the snapshot is for the order. -/
def concerns (s : Snap) (w : Working) : R Bool :=
  if working w.state = false ∨ w.order.submittedAt.gt s.asOf = true then pure false
  else do pure ((← underlyingOf w.order.instr) == s.underlying)

def matchOrder (s : Snap) (id : String) : Act (List Nat) := do
  let w ← read (·.require id)
  if !(← lift (concerns s w)) then pure []
  else match ← read (modelPrices A · s w.order) with
    | none => do
      if w.order.otype = .market then
        modify (·.setOrder id { w with state := .rejected, updatedAt := s.asOf })
      pure []
    | some prices => match ← lift (fillPrices A w.order prices) with
      | none => pure []
      | some prices => fill A id prices s.asOf

def matchOrders (s : Snap) : List String → Act (List Nat)
  | [] => pure []
  | id :: rest => do
    let made ← matchOrder A s id
    pure (made ++ (← matchOrders s rest))

def noteSeen (s : Snap) (v : Venue) : Venue :=
  { v with seen := v.seen.put s.underlying (((v.seen.get s.underlying).map (tsMax · s.asOf)).getD s.asOf) }

/-- The checks made before orders are matched. -/
def openSnapshot (s : Snap) (clock : Clock) (v : Venue) : R Unit := do
  v.requireConnected
  let now ← clock 0
  refuseIf (s.asOf.gt now = true) .snapshot
    s!"{s.underlying} snapshot of {s.asOf.iso} is after the clock {now.iso}: look-ahead (I7)"

def processSnapshot (s : Snap) (clock : Clock) : Act (List Nat) := do
  read (openSnapshot s clock)
  expireDue cal (clock 1)
  let made ← matchOrders A s (← gets queue)
  modify (noteSeen s)
  pure made

/-! ## Restoring -/

/-- The leg of its order a restored fill names. -/
def legOf (o : VOrder) (f : SFill) : R ComboLeg :=
  if isCombo o then
    let shown := (f.legId.map pyRepr).getD "None"
    let bad : R ComboLeg := err .snapshot s!"Fill '{f.fillId}' names leg {shown}"
    match f.legId with
    | none => bad
    | some id =>
      if asciiDecimal id.toList then
        match (legs o)[id.toList.foldl (fun n c => 10 * n + (c.toNat - '0'.toNat)) 0]? with
        | some leg => .ok leg
        | none => bad
      else bad
  else if f.legId.isSome then err .snapshot s!"Fill '{f.fillId}' names a leg of a single order"
  else match legs o with
    | leg :: _ => .ok leg
    | [] => err .snapshot s!"Fill '{f.fillId}' names leg None"

def restoreOrder (o : VOrder) (state : OrderState) : Act Unit := do
  lift (refuseIf (Sim.Act.restorable state = false) .snapshot
    s!"Cannot restore '{o.id}' in state {state.value}")
  read fun v => refuseIf ((v.orders.get o.id).isSome = true) .snapshot s!"Order '{o.id}' restored twice"
  read (validate · o)
  modify (·.setOrder o.id ⟨o, state, .zero, o.submittedAt⟩)

/-- What the restored fills come to, leg by leg. -/
abbrev Totals := List ((String × Option String) × Money)

def Totals.add (totals : Totals) (key : String × Option String) (quantity : Money) : R Totals :=
  match totals.lookup key with
  | some total => do
    let total ← Ops.add A total quantity
    pure (totals.map fun e => if e.1 = key then (key, total) else e)
  | none => do pure (totals ++ [(key, ← Ops.add A .zero quantity)])

def fillDigits (f : SFill) : R (List Char) :=
  match rpartition ":fill:".toList f.fillId.toList with
  | some (before, number) =>
    if String.ofList before ≠ f.orderId ∨ asciiDecimal number = false then
      err .snapshot s!"Fill id '{f.fillId}' is not a SnapshotVenue fill id"
    else pure number
  | none => err .snapshot s!"Fill id '{f.fillId}' is not a SnapshotVenue fill id"

def restoreFill (totals : Totals) (f : SFill) : Act Totals := do
  let w ← read fun v => match v.orders.get f.orderId with
    | some w => pure w
    | none => err .snapshot s!"Fill '{f.fillId}' references unrestored order '{f.orderId}'"
  let number ← lift (fillDigits f)
  let leg ← lift (legOf w.order f)
  lift (refuseIf (f.instr.same (.single leg.contract) = false ∨ f.side ≠ leg.side) .snapshot
    s!"Fill '{f.fillId}' does not match order '{f.orderId}'")
  let n ← lift (Sim.Act.fillNumber number)
  modify fun v => { v with
    fillCounts := v.fillCounts.put f.orderId (max ((v.fillCounts.get f.orderId).getD 0) n) }
  let totals ← lift (totals.add A (f.orderId, f.legId) f.quantity)
  modify (·.setOrder f.orderId { w with updatedAt := tsMax w.updatedAt f.filledAt })
  modify fun v => { v with fills := v.fills ++ [f] }
  pure totals

def restoreFills : Totals → List SFill → Act Totals
  | totals, [] => pure totals
  | totals, f :: rest => do
    let totals ← restoreFill A totals f
    restoreFills totals rest

/-- The least of an order's legs, in units of the order. -/
def restoredUnits (totals : Totals) (o : VOrder) : R Money := do
  let units ← (legs o).zipIdx.mapM fun x => do
    let key := (o.id, if isCombo o then some (toString x.2) else none)
    Ops.div A ((totals.lookup key).getD .zero) (← d (Money.fromI128 x.1.ratio))
  pure ((units.head?.map fun first => units.tail.foldl dmin first).getD .zero)

def consistent (w : Working) : Bool :=
  match w.state with
  | .accepted => w.filled.mantissa = 0
  | .filled => w.filled.eqNum w.order.quantity
  | _ => w.filled.le w.order.quantity

def settleRestored (totals : Totals) (id : String) : Act Unit := do
  let w ← read (·.require id)
  let filled ← lift (restoredUnits A totals w.order)
  modify (·.setOrder id { w with filled := filled })
  lift (refuseIf (consistent { w with filled := filled } = false) .snapshot
    s!"Order '{id}' is {w.state.value} with {filled.canon} of {w.order.quantity.canon} filled")

def restorePosition (instr : Instrument) (qty : Money) : Act Unit := do
  if (← gets (·.positions.get instr.hk)).isSome then
    let symbol ← lift instr.symbol
    lift (err .snapshot s!"Position {symbol} restored twice")
  else if qty.isZero then pure ()
  else modify fun v => { v with positions := v.positions.insert instr.hk instr qty }

/-- Load what the ledger says this venue holds into an empty venue. -/
def restore (orders : List (VOrder × OrderState)) (fills : List SFill) (positions : List (Instrument × Money)) :
    Act Unit := do
  read fun v => refuseIf (¬ (v.orders.items = [] ∧ v.fills = [] ∧ v.positions.items = [])) .snapshot
    "restore() requires an empty SnapshotVenue"
  forEach (fun x => restoreOrder x.1 x.2) orders
  let totals ← restoreFills A [] (fills.insertionSort fun f g =>
    f.filledAt.lt g.filledAt = true ∨ f.filledAt.eq g.filledAt = true ∧ (compare f.fillId g.fillId != .gt) = true)
  forEach (settleRestored A totals) (← gets Venue.orderIds)
  forEach (fun x => restorePosition x.1 x.2) positions

end Act

/-! ## Runs -/

inductive Request where
  | connect (clock : Clock)
  | restore (orders : List (VOrder × OrderState)) (fills : List SFill) (positions : List (Instrument × Money))
  | submit (order : VOrder) (clock : Clock)
  | cancel (id : String) (clock : Clock)
  | replace (id : String) (clock : Clock)
  | orders (since : R (Option Ts)) (clock : Clock)
  | fills (since : R (Option Ts)) (clock : Clock)
  | positions (clock : Clock)
  | processSnapshot (snap : Snap) (clock : Clock)

/-- A call, for the venue it leaves. -/
def perform : Request → Act Unit
  | .connect clock => discard (Act.connect clock)
  | .restore orders fills positions => Act.restore A orders fills positions
  | .submit order clock => discard (Act.submit cal order clock)
  | .cancel id clock => discard (Act.cancel cal id clock)
  | .replace id clock => discard (Act.replace id clock)
  | .orders since clock => discard (Act.ordersSince A cal since clock)
  | .fills since clock => discard (Act.fillsSince cal since clock)
  | .positions clock => discard (Act.positions clock)
  | .processSnapshot snap clock => discard (Act.processSnapshot A cal snap clock)

/-- The venue a call leaves, refused or not. -/
def after (v : Venue) (r : Request) : Venue := (perform A cal r v).2

/-- The venue a sequence of calls leaves. -/
def afterAll (v : Venue) (rs : List Request) : Venue := rs.foldl (after A cal) v

end TradeEngine.Sim.Snapshot
