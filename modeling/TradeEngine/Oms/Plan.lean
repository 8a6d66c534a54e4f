import TradeEngine.Ledger.Fold

/-!
# The order manager's decisions

What the manager decides from carriers it has already read: quantities, replays, acknowledgements and
the next action on an order. Nothing here reads a clock, a ledger or a venue.
-/

namespace TradeEngine.Oms

open Lib

variable (A : Arith)

def one : Money := .one

/-- `OrderState` in FILLED, CANCELLED, REJECTED or EXPIRED. -/
def terminal : OrderState → Bool
  | .filled | .cancelled | .rejected | .expired => true
  | _ => false

def management {α : Type} (msg : String) : R α := err .orderManagement msg

def conflict {α : Type} (id msg : String) : R α := err .idempotency s!"command_id '{id}' {msg}"

/-! ## Quantities -/

def sum (a : List Money) : R Money := a.foldlM (Ops.add A) .zero

def floor (a : Money) : R Money := (a.toIntegral .floor).mapError derr

def quantity (equity : Bool) (q : Money) : R Unit :=
  refuseIf (equity && !q.isIntegral) .value
    s!"Equity order quantity must be a whole number of shares, got {q.canon}"

def isEquity : Instrument → Bool
  | .single (.equity _) => true
  | _ => false

def refuseFuture : Instrument → R Unit
  | .single (.future _) => err .unsupported "futures not supported in OMS"
  | _ => .ok ()

/-- A whole quantity as an integer, truncated towards zero. -/
def bigInteger (q : Money) : Int :=
  let n := (q.coefficient : Int) / 10 ^ q.scale
  if q.isNegative then -n else n

def usizeLimit : Int := 2 ^ 64

/-- The indices of the `n` first entries under `le`, ties by index. -/
def firstBy {α : Type} (le : α → α → Bool) (keys : List α) (n : Nat) : List Nat :=
  ((keys.zipIdx.insertionSort fun a b => le a.1 b.1).take n).map (·.2)

/-- Largest remainder, stable by index, over whole shares. -/
def allocateShares (q : Money) (w : List Money) : R (List Money) := do
  quantity true q
  refuseIf (w.any (!·.isIntegral)) .value
    "Equity target allocation weights must be whole shares"
  let shares := bigInteger q
  let weights := w.map bigInteger
  let denominator := weights.sum
  let allocations := weights.map fun v => shares * v / denominator
  let remainders := weights.map fun v => shares * v % denominator
  let remaining := shares - allocations.sum
  refuseIf (remaining < 0 || usizeLimit ≤ remaining) .overflow "manager remainder index overflow"
  let chosen := firstBy (fun a b => decide (b ≤ a)) remainders remaining.toNat
  let topped := allocations.zipIdx.map fun (v, i) => if chosen.contains i then v + 1 else v
  topped.mapM fun v => do
    refuseIf (v < -2 ^ 127 || 2 ^ 127 ≤ v) .overflow ""
    (Money.fromI128 v).mapError derr

/-- Shares in proportion to the weights; the last takes what is left. -/
def allocateParts (q : Money) (w : List Money) (total : Money) : R (List Money) := do
  let portions ← w.mapM fun v => do Ops.div A (← Ops.mul A q v) total
  let rest := portions.dropLast
  pure (rest ++ [← Ops.sub A q (← sum A rest)])

def allocate (q : Money) (w : List Money) (equity : Bool) : R (List Money) :=
  if w = [] then .ok [] else do
    refuseIf (w.any (·.le .zero)) .value "target allocation weights must be positive"
    let total ← sum A w
    if equity then allocateShares q w else allocateParts A q w total

def validateQuantity (i : Instrument) (q : Money) : R Unit := do
  refuseFuture i
  quantity (isEquity i) q

def allocateQuantity (q : Money) (w : List Money) (i : Instrument) : R (List Money) := do
  refuseFuture i
  allocate A q w (isEquity i)

def split (q : Money) (w : List Money) (equity : Bool) : R (List Money) :=
  if w = [] then .ok [] else do
    quantity equity q
    let portions ← allocate A q w equity
    refuseIf (portions.any (·.le .zero)) .value
      "quantity is too small to allocate a positive amount to each target"
    pure portions

/-- `count` equal weights, each portion positive. -/
def splitQuantity (q : Money) (count : Nat) (i : Instrument) : R (List Money) := do
  refuseFuture i
  split A q (List.replicate count one) (isEquity i)

/-- How many of the largest remainders are topped up: a negative count drops from the end. -/
def topUps (remaining : Int) (n : Nat) : Nat :=
  if remaining < 0 then (n + remaining).toNat
  else if remaining < usizeLimit then remaining.toNat else n

/-- Whole shares nearest the exact fractions, by largest remainder. -/
def roundShares (q : Money) (exactly : List Money) : R (List Money) := do
  let floors ← exactly.mapM floor
  let remaining := bigInteger (← Ops.sub A q (← sum A floors))
  let keys ← (exactly.zip floors).mapM fun (a, b) => do Ops.neg A (← Ops.sub A a b)
  let chosen := firstBy Money.le keys (topUps remaining keys.length)
  floors.zipIdx.mapM fun (v, i) => if chosen.contains i then Ops.add A v one else pure v

def fractions (q : Money) (w : List Money) (equity : Bool) : R (List Money) := do
  quantity equity q
  let runner ← Ops.sub A one (← sum A w)
  let weights := if runner.gt .zero then w ++ [runner] else w
  let exactly ← weights.mapM (Ops.mul A q)
  let portions ← (if equity then roundShares A q exactly else pure exactly)
  let portions := portions.take w.length
  refuseIf (portions.any (·.le .zero)) .value
    s!"quantity {q.canon} is too small to give every target its fraction"
  pure portions

/-- Each target's fraction, the remainder a runner. -/
def fractionQuantities (q : Money) (w : List Money) (i : Instrument) : R (List Money) := do
  refuseFuture i
  fractions A q w (isEquity i)

def positiveQuantity (q : Money) : R Unit :=
  refuseIf (q.le .zero) .value "quantity must be finite and positive"

def checkPrice (p : Money) : R Unit :=
  refuseIf (p.le .zero) .value s!"price must be finite and positive, got {p.canon}"

def checkFraction (f : Money) : R Unit :=
  refuseIf (f.le .zero || f.ge one) .value
    s!"fraction must be between 0 and 1 exclusive, got {f.canon}"

def isPositive (q : Money) : Bool := q.gt .zero

/-! ## Capabilities -/

structure Capabilities where
  types : List OrderType
  tifs : List Tif
  nativeStops : Bool

/-- A stop needs the native-stops flag as well. -/
def supportsNative (t : OrderType) (c : Capabilities) : Bool :=
  (!(t = .stop || t = .stopLimit) || c.nativeStops) && c.types.contains t

/-- Whether a stop or trail is emulated locally rather than sent. -/
def emulates (t : OrderType) (c : Capabilities) : Bool :=
  (t = .stop || t = .stopLimit || t = .trail) && !supportsNative t c

def bracketCapabilities (t : OrderType) (entryTif exitTif : Tif) (c : Capabilities) : R Unit := do
  let missing := ([entryTif, exitTif].filter (!c.tifs.contains ·)).map Tif.value
  let unsupported := (missing.insertionSort (· ≤ ·)).dedup
  refuseIf (unsupported ≠ []) .unsupportedOrder
    ("Venue does not support bracket time in force " ++ ", ".intercalate unsupported)
  let name := if t = .stop then "stop" else "stop-limit"
  refuseIf ((t = .stop || t = .stopLimit) && !supportsNative t c) .unsupportedOrder
    s!"Venue has no native {t.value} orders; a {name} entry cannot be worked"

/-- The venue order type a triggered emulated stop goes out as; `none` refuses. -/
def triggerType (types : List OrderType) : Option OrderType :=
  if types.contains .market then some .market
  else if types.contains .limit then some .limit
  else none

/-- True when the order's time in force is unsupported (the caller records a refusal). -/
def unsupportedTif (t : Tif) (venueType : Option OrderType) (c : Capabilities) : R Bool :=
  if !c.tifs.contains t then .ok true
  else
    match venueType with
    | some v =>
      if c.types.contains v then .ok false
      else err .unsupportedOrder s!"Venue does not support trigger order type {v.value}"
    | none => .ok false

def trailingCheck (t : OrderType) (method order : String) (types : List OrderType) : R Unit := do
  refuseIf (t ≠ .trail) .value s!"{method} requires a TRAIL order"
  refuseIf (method = "update_trailing" ∧ types.contains .trail) .orderManagement
    s!"Order '{order}' is native at this venue; no local trail is running"

def emulationCheck (order : String) (t : OrderType) (emulated : Bool) (c : Capabilities) :
    R Unit := do
  refuseIf (!emulated) .orderManagement s!"Emulated order '{order}' has not been started"
  refuseIf (supportsNative t c) .orderManagement
    s!"Order '{order}' is native at this venue; no local emulation is running"

/-! ## Replays -/

/-- Two payloads as their encoded trees compare: decimals by value, datetimes by instant. -/
def payloadEqual : Obj → Obj → Bool
  | .ordersCreated a, .ordersCreated b =>
    a.orders.length == b.orders.length && (a.orders.zip b.orders).all (fun (o, p) => o.same p) &&
      a.fingerprint == b.fingerprint && a.reason == b.reason
  | .orderUpdated a, .orderUpdated b =>
    a.order.same b.order && a.reason == b.reason && a.venueOrderId == b.venueOrderId
  | .stateChange a, .stateChange b => a == b
  | .emulated a, .emulated b => a == b
  | .fill a, .fill b =>
    a.fillId == b.fillId && a.orderId == b.orderId && a.accountId == b.accountId &&
      a.instrument.same b.instrument && a.quantity == b.quantity && a.price == b.price &&
      a.venueEnv == b.venueEnv && a.filledAt.same b.filledAt && a.side == b.side &&
      a.fee == b.fee && a.legId == b.legId && a.venueOrderId == b.venueOrderId &&
      a.venueExecutionId == b.venueExecutionId
  | _, _ => false

/-- The replay check of an append: the stored event is the requested one. -/
def appendReplay (prior : Event) (account : String) (kind : EventKind) (payload : Obj)
    (command : String) : R Unit :=
  if prior.account = account ∧ prior.kind = kind ∧ payloadEqual prior.payload payload = true then
    .ok ()
  else conflict command "was replayed with a different payload"

def createdReplay (prior : Event) (account fingerprint command : String) : R Unit :=
  match prior.payload with
  | .ordersCreated c =>
    if prior.kind = .ordersCreated ∧ prior.account = account ∧ c.fingerprint = fingerprint then .ok ()
    else conflict command "was already used for a different OMS command"
  | _ => conflict command "was already used for a different OMS command"

inductive ReplayMode where
  | pending
  | noop
  | local
deriving DecidableEq, Repr

/-- The stored request names the same order for the same reason. -/
def replayMatches (prior : Event) (mode : ReplayMode) (order reason : String) : Bool :=
  match mode, prior.payload with
  | .pending, .stateChange p =>
    prior.kind = .orderPending && p.orderId = order && p.reason = some reason
  | .noop, .orderUpdated p | .local, .orderUpdated p =>
    prior.kind = .orderUpdated && p.order.orderId = order && p.reason = reason
  | _, _ => false

def replaceReplay (prior : Event) (mode : ReplayMode) (order account reason command : String)
    (state : Option OrderState) : R Unit := do
  let what := if mode = .local then "different emulated stop changes" else "different replace changes"
  refuseIf (¬ (prior.account = account ∧ replayMatches prior mode order reason = true)) .idempotency
    s!"command_id '{command}' was replayed with {what}"
  refuseIf (mode = .pending ∧ state = some .pendingUnknown) .pendingReconciliation
    s!"Replace command '{command}' remains pending reconciliation"

def observationReplay (prior : Event) (account order : String) (price : Money) (command : String) :
    R Unit :=
  match prior.payload with
  | .emulated p =>
    if prior.kind = .orderEmulationUpdated ∧ prior.account = account ∧ p.orderId = order ∧
        p.observedPrice = some price then .ok ()
    else conflict command "was replayed with a different price observation"
  | _ => conflict command "was replayed with a different price observation"

/-! ## Emulation -/

inductive Observed where
  | observe
  | route
  | ret
deriving DecidableEq, Repr

def observedAction (triggered : Bool) (state : OrderState) (order : String) : R Observed :=
  if !triggered then .ok .observe
  else
    match state with
    | .pendingUnknown =>
      err .pendingReconciliation
        s!"Triggered emulated order '{order}' awaits venue reconciliation"
    | .new => .ok .route
    | _ => .ok .ret

def observationReason (t : OrderType) (price : Money) (triggered : Bool) : String :=
  if triggered then s!"{t.value} triggered at observed price {price.canon}"
  else s!"Emulated {t.value} observed price {price.canon}"

inductive Start where
  | ret
  | refuseLimit
  | limit
  | trigger
deriving DecidableEq, Repr

def startPlan (o : Order) (types : List OrderType) : R Start :=
  if o.state = .pendingUnknown then
    err .pendingReconciliation s!"Emulated order '{o.orderId}' is pending reconciliation"
  else if o.state ≠ .new then .ok .ret
  else if o.orderType = .stopLimit then
    .ok (if types.contains .limit then .limit else .refuseLimit)
  else .ok .trigger

/-- Whether a triggered emulated order is still NEW, so its venue order goes out. -/
def sendsEmulated (o : Order) : R Bool := do
  refuseIf (o.state = .pendingUnknown) .pendingReconciliation
    s!"Triggered order '{o.orderId}' awaits venue reconciliation"
  pure (o.state = .new)

/-- True when a triggered STOP_LIMIT goes out at its own limit. -/
def triggerPrice (o : Order) (price : Option Money) : R Bool := do
  refuseIf price.isNone .orderManagement
    s!"Triggered emulated order '{o.orderId}' has no observed price"
  pure (o.orderType = .stopLimit)

/-- The limit price of a triggered order's venue order. -/
def routeLimit (t : OrderType) (price : Option Money) : Option Money :=
  if t = .limit then price else none

/-- The emulated stop's price and whether `price` triggers it. -/
def stopObservation (o : Order) (price : Money) : R (Money × Bool) :=
  match o.stopPrice with
  | none => management s!"Emulated {o.orderType.value} order '{o.orderId}' has no stop price"
  | some stop => .ok (stop, if o.side = .buy then price.ge stop else price.le stop)

/-- The trailing emulator's persisted state. -/
structure Trail where
  side : Side
  trailAmount : Money
  extreme : Option Money
  stopPrice : Option Money
  triggered : Bool

def checkTrailAmount (amount : Money) : R Unit :=
  refuseIf (amount.le .zero) .value "trail_amount must be positive"

/-- One observed price: the moved trail. -/
def Trail.update (t : Trail) (price : Money) : R Trail := do
  refuseIf (price.le .zero) .value s!"price must be finite and positive, got {price.canon}"
  if t.triggered then pure t
  else if t.side = .sell then do
    let extreme := t.extreme.elim price fun e => if price.gt e then price else e
    let stop ← Ops.sub A extreme t.trailAmount
    refuseIf (stop.le .zero) .value "trail amount produces a non-positive protective stop"
    pure { t with extreme := some extreme, stopPrice := some stop, triggered := price.le stop }
  else do
    let extreme := t.extreme.elim price fun e => if price.lt e then price else e
    let stop ← Ops.add A extreme t.trailAmount
    pure { t with extreme := some extreme, stopPrice := some stop, triggered := price.ge stop }

/-! ## Brackets -/

/-- The entry's limit and stop, and the exits' side. -/
def entryTerms (t : OrderType) (side : Side) (price : Money) (limit : Option Money) :
    Option Money × Option Money × Side :=
  let exitSide := if side = .buy then Side.sell else .buy
  if t = .limit then (some price, none, exitSide) else (limit, some price, exitSide)

def children (entry : String) (orders : List Order) : List Order :=
  orders.filter (·.parentOrderId = some entry)

def siblings (o : Order) (orders : List Order) : List Order :=
  orders.filter fun c => c.orderId ≠ o.orderId && o.parentOrderId.isSome && o.ocoGroup.isSome &&
    c.parentOrderId = o.parentOrderId && c.ocoGroup = o.ocoGroup

structure Bracket where
  entry : Order
  stop : Order
  targets : List Order

/-- The entry, the stop and the targets by id; a missing entry or stop is `StopIteration`. -/
def bracketOf (orders : List Order) : R Bracket :=
  match orders.find? (·.parentOrderId.isNone) with
  | none => err .stopIteration ""
  | some entry =>
    let exits := children entry.orderId orders
    match exits.find? (·.orderType = .stop) with
    | none => err .stopIteration ""
    | some stop =>
      .ok ⟨entry, stop, (exits.filter (·.orderType = .limit)).insertionSort
        fun a b => a.orderId ≤ b.orderId⟩

def exited (st : AccountState) (exits : List Order) : R Money :=
  sum A (exits.map fun o => st.filled o.orderId)

/-- The working protective stop and the open quantity. -/
def openStop (st : AccountState) (entry : Order) : R (Order × Money) := do
  let exits := children entry.orderId st.orders.values
  refuseIf entry.parentOrderId.isSome .orderManagement
    s!"Order '{entry.orderId}' is not a bracket entry"
  match exits.find? (·.orderType = .stop) with
  | none => management s!"Order '{entry.orderId}' has no protective stop"
  | some stop =>
    let left ← Ops.sub A (st.filled entry.orderId) (← exited A st exits)
    refuseIf (left.le .zero) .orderManagement s!"Bracket '{entry.orderId}' has no open quantity"
    refuseIf (¬ (stop.state = .accepted ∨ stop.state = .partiallyFilled)) .orderManagement
      (s!"Protective stop '{stop.orderId}' is {stop.state.value}, not working at the venue;" ++
        " reconcile before managing the bracket")
    pure (stop, left)

/-- A protective stop under a bracket entry. -/
def protectiveChild (parent : Option String) (t : OrderType) : Bool := parent.isSome && t = .stop

/-- Whether cancelling the protective stop `o` would leave open quantity unprotected. -/
def cancelProtective (st : AccountState) (entry o : Order) : R Bool :=
  let exits := children entry.orderId st.orders.values
  if exits.any (·.orderType = .stop) then do
    let out ← exited A st exits
    pure ((st.filled entry.orderId).gt out && !terminal o.state)
  else .ok false

/-- What `synchronize_bracket` does first: the exits as they were read, and the quantities. -/
structure SyncPlan where
  stop : Order
  entryFilled : Money
  left : Money
  stopFilled : Money
  entryTerminal : Bool
  targets : List Order
  closers : List Order
deriving DecidableEq

def sync (st : AccountState) (entryId : String) : R (Option SyncPlan) :=
  match st.orders.get entryId with
  | none => err .key s!"Unknown order_id '{entryId}'"
  | some entry =>
    let exits := children entry.orderId st.orders.values
    match exits.find? (·.orderType = .stop) with
    | none => .ok none
    | some stop => do
      let entryFilled := st.filled entry.orderId
      let _ ← Ops.sub A entryFilled (← exited A st exits)
      if entryFilled.eqNum .zero && !terminal entry.state then pure none
      else do
        let targets := exits.filter (·.orderType = .limit)
        let closers := exits.filter (·.orderType = .market)
        let stopFilled := st.filled stop.orderId
        let targetFilled ← exited A st (targets ++ closers)
        let left ← Ops.sub A (← Ops.sub A entryFilled stopFilled) targetFilled
        refuseIf (left.lt .zero) .orderManagement
          (s!"Exit fills exceed entry fills for bracket '{entry.orderId}';" ++
            " venue reconciliation required")
        pure (some ⟨stop, entryFilled, left, stopFilled, terminal entry.state, targets, closers⟩)

/-- True when the bracket holds open quantity to protect; false when it is flat. -/
def syncMode (filled left : Money) : Bool := filled.gt .zero && left.gt .zero

/-- True when the targets are re-budgeted: no stop fill and the entry is done. -/
def syncTargets (stopFilled : Money) (entryTerminal : Bool) : Bool :=
  stopFilled.eqNum .zero && entryTerminal

/-- The targets' planned weights, plus the runner the entry's plan leaves. -/
def targetWeights (weights : List Money) (planned : Money) : R (List Money) := do
  let runner ← Ops.sub A planned (← sum A weights)
  pure (if runner.gt .zero then weights ++ [runner] else weights)

inductive ChildPlan where
  | ret
  | submit
  | local (quantity : Money)
  | replace (quantity : Money)
deriving DecidableEq

/-- What sizing a child to `q` beyond its fills takes. -/
def childQuantity (o : Order) (filled q : Money) : R ChildPlan :=
  match o.state with
  | .rejected =>
    if o.orderType = .stop then
      management (s!"Protective stop '{o.orderId}' was rejected;" ++
        " open quantity requires venue reconciliation")
    else .ok .ret
  | .cancelled | .filled =>
    management s!"Protective child '{o.orderId}' is terminal in state {o.state.value}"
  | _ => do
    quantity (isEquity o.instrument) q
    let total ← Ops.add A filled q
    pure (if o.quantity.eqNum total then (if o.state = .new then .submit else .ret)
      else if o.state = .new then .local total else .replace total)

/-- The entry's reduce orders. -/
def reduces (entry : String) (exits : List Order) : List Order :=
  exits.filter fun o => (entry ++ ":reduce:").isPrefixOf o.orderId

def closeGuard (entry : String) (exits : List Order) : R Unit :=
  refuseIf ((reduces entry exits).any (!terminal ·.state)) .orderManagement
    (s!"Bracket '{entry}' has a reduce order working;" ++
      " it must resolve before the bracket can be closed")

/-- The reduce quantity and its order id. -/
def reduce (entry : String) (exits : List Order) (left fraction : Money) : R (Money × String) := do
  let prior := reduces entry exits
  refuseIf (exits.any fun o => o.orderId = entry ++ ":close" && !terminal o.state) .orderManagement
    s!"Bracket '{entry}' has a close order working; nothing is left to reduce"
  refuseIf (prior.any (!terminal ·.state)) .orderManagement
    s!"Bracket '{entry}' already has a reduce order working"
  let q ← floor (← Ops.mul A left fraction)
  refuseIf (q.lt one) .orderManagement
    (s!"Reducing bracket '{entry}' by {fraction.canon} of {left.canon} rounds down to nothing;" ++
      " refusing to guess a size")
  pure (q, s!"{entry}:reduce:{prior.length + 1}")

/-- True when the stop moves (a replace); false when the price is unchanged. -/
def moveStopPlan (o : Order) (price : Money) : R Bool :=
  match o.stopPrice with
  | none => management s!"Protective stop '{o.orderId}' has no stop price"
  | some current =>
    if price.eqNum current then .ok false
    else do
      refuseIf (if o.side = .sell then price.lt current else price.gt current) .orderManagement
        (s!"Moving stop '{o.orderId}' from {current.canon} to {price.canon} would widen the" ++
          " bracket's risk; stops only tighten")
      pure true

/-- A close order exists: refuse another command's; true when it already left NEW. -/
def closeReplay (o : Order) (entry command : String) : R Bool := do
  refuseIf (o.commandId ≠ command) .idempotency
    s!"Bracket '{entry}' already has close order '{o.orderId}' from command '{o.commandId}'"
  pure (o.state ≠ .new)

/-! ## Submission and its refusals -/

/-- A stored order may only be resubmitted unchanged (a child may shrink). -/
def stored (created candidate : Order) : R Unit :=
  let plain := { candidate with state := .new }
  let same := match created.parentOrderId with
    | none => plain.same created
    | some _ => { plain with quantity := created.quantity }.same created &&
        candidate.quantity.le created.quantity
  refuseIf (!same) .idempotency
    s!"order_id '{candidate.orderId}' was reused with a different order payload"

/-- A child waits until its parent has a fill. -/
def childHold (parentFilled : Money) : Bool := parentFilled.le .zero

def stopRejected (t : OrderType) (state : OrderState) (order : String) : R Unit :=
  refuseIf (t = .stop ∧ state = .rejected) .orderManagement
    s!"Protective stop '{order}' was rejected; open quantity requires venue reconciliation"

inductive Refusal where
  | child (parent : String)
  | protective
  | native
  | limit
  | trigger
  | tif
deriving DecidableEq

/-- A refused order: the reason recorded, the command-id suffix, and the refusal. -/
def refused (o : Order) : Refusal → String × String × LErr
  | .child parent => (s!"Child held until parent '{parent}' has a fill", "child-held",
      ⟨.orderManagement, s!"Child order '{o.orderId}' is held until its entry fills"⟩)
  | .protective =>
    ("Cannot cancel the only protective stop while the bracket has open quantity",
      "protective-stop-refused", ⟨.orderManagement,
        s!"Cannot cancel protective stop '{o.orderId}' while its position is open"⟩)
  | .native =>
    (s!"Venue does not support {o.orderType.value}; no native order was sent", "unsupported-type",
      ⟨.unsupportedOrder, s!"Venue does not support order type {o.orderType.value}"⟩)
  | .limit => ("Emulated STOP_LIMIT requires venue LIMIT support", "no-stop-limit-fallback",
      ⟨.unsupportedOrder, "Emulated STOP_LIMIT requires venue LIMIT support"⟩)
  | .trigger => ("Emulated stop requires venue MARKET or LIMIT support when triggered",
      "no-trigger-order",
      ⟨.unsupportedOrder, "Emulated stops require MARKET or LIMIT capability"⟩)
  | .tif => (s!"Venue does not support time in force {o.tif.value}",
      s!"unsupported-tif:{o.tif.value}",
      ⟨.unsupportedOrder, s!"Venue does not support time in force {o.tif.value}"⟩)

def fillMatch (fill order account fillAccount : String) (env fillEnv : VenueEnv) : R Unit :=
  refuseIf (account ≠ fillAccount ∨ env ≠ fillEnv) .orderManagement
    s!"Fill '{fill}' account or venue environment does not match order '{order}'"

/-! ## Acknowledgements -/

/-- A venue's message, or the text that stands in for an empty one. -/
def orElse (message instead : String) : String := if message = "" then instead else message

/-- The event a submit acknowledgement records, and its reason. -/
def submitAck (status message : String) : R (EventKind × String) :=
  match status with
  | "ACCEPTED" => .ok (.orderAccepted, "Venue accepted order")
  | "REJECTED" =>
    .ok (.orderRejected, "Venue rejected order: " ++ orElse message "reason not supplied")
  | "PENDING" =>
    .ok (.orderPending, "Venue has not resolved order: " ++ orElse message "no status message")
  | _ => management ("Unrecognized venue submit status " ++ pyRepr status)

inductive Ack where
  | accepted
  | rejected
  | pending
deriving DecidableEq, Repr

/-- The action, its reason, and the refusal raised after its events are recorded. -/
structure AckPlan where
  action : Ack
  reason : String
  refusal : Option LErr

def replaceAck (status message order command : String) : AckPlan :=
  match status with
  | "ACCEPTED" => ⟨.accepted, s!"Venue confirmed replace: {command}", none⟩
  | "REJECTED" =>
    let m := orElse message "reason not supplied"
    ⟨.rejected, s!"Venue rejected replace: {m}",
      some ⟨.orderManagement, s!"Venue rejected replace for '{order}': {m}"⟩⟩
  | _ =>
    let m := orElse message (if status = "PENDING" then "no status message" else "unrecognized status")
    ⟨.pending, s!"Venue replace remains pending: {m}", none⟩

def cancelAck (status reason message order : String) (oco : Bool) : R AckPlan :=
  match status with
  | "ACCEPTED" => .ok ⟨.accepted, reason, none⟩
  | "REJECTED" =>
    let m := s!"Venue rejected cancel for '{order}': " ++
      orElse message "order may already have filled; reconcile required"
    .ok ⟨.rejected, m, some ⟨if oco then .ocoUnknown else .pendingReconciliation, m⟩⟩
  | "PENDING" =>
    .ok ⟨.pending, "Venue cancel remains pending: " ++ orElse message "no status message",
      if oco then
        some ⟨.ocoUnknown, s!"Venue has not confirmed cancellation of OCO sibling '{order}'"⟩
      else none⟩
  | _ => management ("Unrecognized venue cancel status " ++ pyRepr status)

/-! ## Cancels and replaces -/

inductive IdMode where
  | replace
  | cancel
deriving DecidableEq, Repr

/-- The confirmed venue order id a replace or cancel goes to. -/
def confirmedId (venue : Option String) (order : String) (mode : IdMode) : R String :=
  match venue with
  | some v => .ok v
  | none => err .pendingReconciliation
      (if mode = .replace then s!"Order '{order}' has no confirmed venue order id"
        else s!"Working order '{order}' has no venue id")

inductive CancelMode where
  | ret
  | local
  | venue
deriving DecidableEq, Repr

def cancelMode (state : OrderState) (order : String) (oco : Bool) : R CancelMode :=
  match state with
  | .cancelled | .filled | .rejected | .expired => .ok .ret
  | .pendingUnknown =>
    if oco then err .ocoUnknown s!"OCO sibling '{order}' is already pending reconciliation"
    else .ok .ret
  | .new => .ok .local
  | _ => .ok .venue

def ocoCheck (state : OrderState) (order : String) : R Unit :=
  refuseIf (!terminal state) .ocoUnknown
    s!"Could not confirm cancellation of OCO sibling '{order}'"

structure OrderChanges where
  newQuantity : Option Money
  newLimitPrice : Option Money
  newStopPrice : Option Money

def OrderChanges.repr (c : OrderChanges) : String :=
  let f (v : Option Money) := v.elim "None" fun d => "Decimal('" ++ d.canon ++ "')"
  s!"OrderChanges(new_quantity={f c.newQuantity}, new_limit_price={f c.newLimitPrice}," ++
    s!" new_stop_price={f c.newStopPrice})"

def replaceQuantity (q : Option Money) (filled : Money) (equity : Bool) : R Unit :=
  match q with
  | none => .ok ()
  | some q => do
    refuseIf (q.lt filled || q.le .zero) .value
      (s!"replacement quantity must be finite, positive, and at least filled quantity" ++
        s!" {filled.canon}")
    quantity equity q

def replaceState (o : Order) : R Unit := do
  refuseIf (o.state = .new || terminal o.state) .orderManagement
    s!"Cannot replace order '{o.orderId}' in state {o.state.value}"
  refuseIf (o.state = .pendingUnknown) .pendingReconciliation
    s!"Order '{o.orderId}' is pending reconciliation"

/-- A NEW emulated stop that has not triggered is replaced locally, never at the venue. -/
def localReplace (o : Order) (emulation : Option EmulatedOrderState) : Bool :=
  o.state = .new && (o.orderType = .stop || o.orderType = .stopLimit) &&
    emulation.any (!·.triggered)

/-- The order with the changes applied, and whether nothing changed. -/
def replaceTerms (o : Order) (c : OrderChanges) : Order × Bool :=
  let updated := { o with
    quantity := c.newQuantity.getD o.quantity
    limitPrice := c.newLimitPrice.or o.limitPrice
    stopPrice := c.newStopPrice.or o.stopPrice }
  (updated, updated.same o)

/-! ## Reconciliation -/

structure VenueOrderState where
  venueOrderId : String
  state : OrderState
  filledQuantity : Money
  remainingQuantity : Money
  updatedAt : String

/-- The read-back row for an order: by venue id, else by order id. -/
def reconcileFind (order venue : String) (rows : List VenueOrderState) (state : OrderState) :
    R VenueOrderState :=
  match rows.find? fun r => r.venueOrderId = venue || r.venueOrderId = order with
  | some r => .ok r
  | none => err .orderReconciliation
      s!"Venue has no read-back for order '{order}'; it remains {state.value}"

def reconcileReplace (order : String) (found : OrderState) (unresolved : Bool) : R Unit :=
  refuseIf (unresolved && !terminal found) .orderReconciliation
    s!"Pending replace terms for '{order}' cannot be resolved from status-only venue read-back"

inductive Resolution where
  | ret
  | updated
  | record (kind : EventKind)
deriving DecidableEq

def reconcileResult (found state : OrderState) (order : String) : R Resolution :=
  match found with
  | .filled =>
    if state = .filled then .ok .ret
    else err .orderReconciliation
      s!"Venue reports '{order}' FILLED but its fill records do not complete it"
  | .partiallyFilled => .ok .ret
  | .submitted => .ok .updated
  | .accepted => .ok (.record .orderAccepted)
  | .cancelled => .ok (.record .orderCancelled)
  | .rejected => .ok (.record .orderRejected)
  | .expired => .ok (.record .orderExpired)
  | .new | .pendingUnknown => err .orderReconciliation
      s!"Venue state {found.value} does not resolve order '{order}'"

def ingestCheck (found recorded : Money) (order : String) (state : OrderState) : R Unit :=
  refuseIf (recorded.lt found) .orderReconciliation
    (s!"Venue reports {found.canon} filled for '{order}' but its fill records account for" ++
      s!" {recorded.canon}; it remains {state.value}")

/-- The replace command an `OrderPending` event opened, if it is one. -/
def pendingCandidate (order : String) (e : Event) : Option String :=
  match e.payload with
  | .stateChange c =>
    if c.orderId = order ∧ c.reason.any ("Replace pending:".isPrefixOf ·) then
      e.commandId.bind fun id => (id.dropSuffix? ":pending").map (·.toString)
    else none
  | _ => none

end TradeEngine.Oms
