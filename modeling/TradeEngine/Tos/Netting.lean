import TradeEngine.Ledger.Fold

/-!
# Netting strategy orders into venue tickets

One batch of strategy orders becomes same-side tickets of one venue account. An order the venue
cannot take, and one that would hold a contract against another strategy, is refused with a reason.
-/

namespace TradeEngine.Tos

open Lib

/-- What `parse_datetime` makes of a host's timestamp: the time, and whether it is aware. -/
abbrev Stamp := R (DateTime × Bool)

def requireAware (stamp : Stamp) (kind : ErrKind) (msg : String) : R DateTime := do
  let t ← stamp
  refuseIf (!t.2) kind msg
  pure t.1

def wireErr {α : Type} (msg : String) : R α := err .wire msg

/-- `'x'`-style list repr of strings. -/
def pyList (items : List String) : String := "[" ++ ", ".intercalate (items.map pyRepr) ++ "]"

def sortTexts (l : List String) : List String := l.insertionSort fun a b => ¬ b < a

/-! ## Orders -/

/-- Why `legs` is not a mirrorable 2-leg 1:1 vertical, or `none` when it is. -/
def verticalReason (legs : List ComboLeg) : R (Option String) :=
  match legs with
  | [⟨.option a, ra, sa, _⟩, ⟨.option b, rb, sb, _⟩] => pure (
    if a.underlying ≠ b.underlying then some "legs on two underlyings are not a vertical"
    else if a.expiry ≠ b.expiry then
      some "legs on two expiries (a calendar or diagonal) are not a vertical"
    else if a.right ≠ b.right then some "a call leg and a put leg are not a vertical"
    else if a.multiplier ≠ b.multiplier then
      some "legs with two multipliers are not a vertical (I6)"
    else if a.strike.eqNum b.strike then some "two legs on one strike are not a vertical"
    else if sa = sb then some "both legs on one side are not a vertical"
    else if ra ≠ rb then some s!"a {ra}:{rb} ratio spread is not a 1:1 vertical"
    else none)
  | legs => do
    let symbol ← (Instrument.combo legs).symbol
    pure (some s!"{symbol} is not a 2-leg option combo; only verticals are mirrored")

inductive Traded where
  | known (i : Instrument)
  | other (repr : String)
deriving DecidableEq

structure NOrder where
  orderId : String
  accountId : String
  instrument : Traded
  orderType : OrderType
  side : Side
  quantity : Money
  tif : Tif
  limitPrice : Option Money
deriving DecidableEq

/-- Why an order's type, time in force or size cannot go to the venue, or `none`. -/
def screenTerms (o : NOrder) : Option String :=
  let noun := match o.instrument with
    | .known (.single (.equity _)) => "shares"
    | _ => "contracts"
  if o.orderType ≠ .market ∧ o.orderType ≠ .limit then
    some s!"UnsupportedCapability: order type {o.orderType.value} (MARKET/LIMIT only)"
  else if o.tif ≠ .day ∧ o.tif ≠ .gtc then
    some s!"UnsupportedCapability: TIF {o.tif.value} (DAY/GTC only)"
  else if !o.quantity.isIntegral then
    some s!"quantity {o.quantity.canon} is not a whole number of {noun}; refusing to round (I5)"
  else none

/-- Why a single order cannot go to the venue at all, or `none`. -/
def screen (o : NOrder) (mirrored : List String) : R (Option String) :=
  if o.accountId ∉ mirrored then
    let shown := pyList (sortTexts mirrored)
    pure (some s!"account {o.accountId} is not mirrored on this venue (mirrors {shown}); refused at the venue only (§4.7)")
  else
    match o.instrument with
    | .known (.combo legs) => do
      match ← verticalReason legs with
      | some reason => pure (some s!"UnsupportedCapability: multi-leg combo: {reason}")
      | none =>
        if o.orderType ≠ .limit then
          pure (some "UnsupportedCapability: a vertical is mirrored with one net LIMIT price only")
        else pure (screenTerms o)
    | .other repr =>
      pure (some s!"UnsupportedCapability: instrument {repr} is not a mirrored option or share")
    | .known (.single _) => pure (screenTerms o)

/-! ## Tickets -/

structure Allocated where
  strategyOrderId : String
  accountId : String
  quantity : Money
deriving DecidableEq

structure Ticket where
  venueOrderId : String
  instrument : Instrument
  orderType : OrderType
  side : Side
  quantity : Money
  submittedAt : DateTime
  tif : Tif
  limitPrice : Option Money
  allocations : List Allocated
deriving DecidableEq

variable (A : Arith) (sha256 : String → String)

/-- The idempotency key of one ticket's full contents. -/
def ticketKey (venueAccount : String) (i : Instrument) (side : Side) (quantity : Money)
    (t : OrderType) (limit : Option Money) (tif : Tif) (orderIds : List String) : R String := do
  let symbol ← i.symbol
  let parts := [venueAccount, symbol, side.value, quantity.canon, t.value, limit.elim "" Money.canon,
    tif.value] ++ sortTexts orderIds
  pure (sha256 ("\x1f".intercalate parts))

def allocate (o : NOrder) : R Allocated := do
  refuseIf (o.orderId = "") .value "strategy_order_id must be non-empty"
  refuseIf (o.accountId = "") .value "account_id must be non-empty"
  refuseIf (o.quantity.le .zero) .value s!"quantity must be positive, got {o.quantity.canon}"
  pure ⟨o.orderId, o.accountId, o.quantity⟩

/-- One same-side ticket: the sum of its orders, each allocated its own quantity. -/
def makeTicket (venueAccount : String) (i : Instrument) (t : OrderType) (tif : Tif)
    (limit : Option Money) (side : Side) (group : List NOrder) (stamp : Stamp) : R Ticket := do
  let quantity ← group.foldlM (fun q o => Ops.add A q o.quantity) Money.zero
  let key ← ticketKey sha256 venueAccount i side quantity t limit tif (group.map (·.orderId))
  let allocations ← group.mapM allocate
  refuseIf (quantity.le .zero) .value s!"quantity must be positive, got {quantity.canon}"
  let submitted ← requireAware stamp .value "submitted_at must be timezone-aware UTC datetime (I7)"
  refuseIf (t = .market ∧ limit.isSome) .value "MARKET order cannot have a limit_price"
  refuseIf (t = .limit ∧ limit.isNone) .value "LIMIT order must have a limit_price"
  let allocated ← allocations.foldlM (fun q a => Ops.add A q a.quantity) Money.zero
  refuseIf (allocated.ne quantity) .value
    s!"VenueOrder allocations total {allocated.canon} but order quantity is {quantity.canon}"
  pure
    { venueOrderId := "tos:" ++ String.ofList (key.toList.take 32)
      instrument := i
      orderType := t
      side := side
      quantity := quantity
      submittedAt := submitted
      tif := tif
      limitPrice := limit
      allocations := allocations }

/-! ## Screening a batch -/

/-- Accounts with their signed holdings of one contract. -/
abbrev Holders := List (String × Money)

/-- Whether the nonzero holdings of one contract hold both signs. -/
def mixedSigns (book : Holders) : Bool :=
  decide (1 < ((book.filter (·.2.ne .zero)).map (·.2.gt .zero)).dedup.length)

def signedBy (side : Side) (q : Money) : R Money := if side = .buy then pure q else Ops.neg A q

def legsOf (o : NOrder) : R (List (Contract × Side × Money)) :=
  match o.instrument with
  | .known (.combo legs) => legs.mapM fun l => do pure (l.contract, l.side, ← Ops.mulI A o.quantity l.ratio)
  | .known (.single c) => pure [(c, o.side, o.quantity)]
  | .other _ => wireErr "a screened order has a model instrument"

/-- What a batch has settled so far. `accepted` and `verticals` hold orders with their places in the
batch. -/
structure Netting where
  refused : List (String × String)
  seenIds : List String
  accepted : OMap Contract (List (NOrder × Nat))
  batchSide : OMap Contract (Side × String)
  books : OMap Contract Holders
  verticals : List (NOrder × Nat)

def Netting.start : Netting := ⟨[], [], .empty, .empty, .empty, []⟩

/-- One contract's holders with one more trade of an account. -/
def addHolding (account : String) (delta : Money) : Holders → R Holders
  | [] => do pure [(account, ← Ops.add A .zero delta)]
  | (a, q) :: rest =>
    if a = account then do pure ((a, ← Ops.add A q delta) :: rest)
    else do pure ((a, q) :: (← addHolding account delta rest))

def holdersOf (holdings : OMap (String × Contract) Money) (s : Netting) (c : Contract) : Holders :=
  match s.books.get c.hk with
  | some book => book
  | none => (holdings.entries.filter (·.1.2.hk = c.hk)).map fun e => (e.1.1, e.2)

/-- A leg against the first order of the batch on its contract: why it is refused, if it is. -/
def opposes (s : Netting) (c : Contract) (side : Side) : R (Option String) :=
  match s.batchSide.get c.hk with
  | some first =>
    if first.1 ≠ side then do
      let symbol ← c.symbol
      pure (some s!"conflict: {side.value} {symbol} opposes first-in {first.1.value} {first.2} on the same contract; refused at the venue only")
    else pure none
  | none => pure none

/-- Why a trial book is refused: another strategy would hold the other side. -/
def mixedReason (o : NOrder) (c : Contract) (side : Side) (trial : Holders) : R String := do
  let others := sortTexts ((trial.filter fun h => decide (h.1 ≠ o.accountId) && h.2.ne .zero).map (·.1))
  let symbol ← c.symbol
  let listed := ", ".intercalate others
  pure s!"conflict: {side.value} {symbol} for {o.accountId} would hold the opposite side of {listed} in one venue account; refused at the venue only"

def tryLegs (holdings : OMap (String × Contract) Money) (s : Netting) (o : NOrder) :
    List (Contract × Side × Money) → OMap Contract Holders →
      R (Except String (OMap Contract Holders))
  | [], trials => pure (.ok trials)
  | (c, side, contracts) :: rest, trials => do
    match ← opposes s c side with
    | some reason => pure (.error reason)
    | none =>
      let trial ← addHolding A o.accountId (← signedBy A side contracts) (holdersOf holdings s c)
      if mixedSigns trial then do pure (.error (← mixedReason o c side trial))
      else tryLegs holdings s o rest (trials.insert c.hk c trial)

def keepLeg (o : NOrder) (trials : OMap Contract Holders) (s : Netting)
    (leg : Contract × Side × Money) : Netting :=
  let hk := leg.1.hk
  { s with
    books := s.books.insert hk leg.1 ((trials.get hk).getD [])
    batchSide := if s.batchSide.contains hk then s.batchSide
      else s.batchSide.insert hk leg.1 (leg.2.1, o.orderId) }

def keepOrder (x : NOrder × Nat) (s : Netting) : Netting :=
  match x.1.instrument with
  | .known (.single c) =>
    { s with accepted := s.accepted.insert c.hk c ((s.accepted.get c.hk).getD [] ++ [x]) }
  | _ => { s with verticals := s.verticals ++ [x] }

def netOrder (mirrored : List String) (holdings : OMap (String × Contract) Money) (s : Netting)
    (x : NOrder × Nat) : R Netting :=
  let o := x.1
  let refuse (s : Netting) (reason : String) : Netting :=
    { s with refused := s.refused ++ [(o.orderId, reason)] }
  if o.orderId ∈ s.seenIds then
    pure (refuse s s!"duplicate strategy order {o.orderId} in one batch (I3)")
  else do
    let s := { s with seenIds := s.seenIds ++ [o.orderId] }
    match ← screen o mirrored with
    | some reason => pure (refuse s reason)
    | none =>
      let legs ← legsOf A o
      match ← tryLegs A holdings s o legs .empty with
      | .error reason => pure (refuse s reason)
      | .ok trials => pure (keepOrder x (legs.foldl (keepLeg o trials) s))

/-! ## Tickets of a batch -/

structure Terms where
  orderType : OrderType
  tif : Tif
  limit : Option Money
deriving DecidableEq

def termsOf (o : NOrder) : Terms :=
  ⟨o.orderType, o.tif, if o.orderType = .limit then o.limitPrice else none⟩

def Terms.hk (t : Terms) : String :=
  t.orderType.value ++ "\x01" ++ t.tif.value ++ "\x01" ++ t.limit.elim "N" fun p => "L" ++ p.canon

def groupTerms (members : List (NOrder × Nat)) : OMap Terms (List (NOrder × Nat)) :=
  members.foldl (fun groups x =>
    let t := termsOf x.1
    groups.insert t.hk t ((groups.get t.hk).getD [] ++ [x])) .empty

structure Batch where
  venueOrders : List Ticket
  refused : List (String × String)
deriving DecidableEq

/-- One group's ticket; a group whose ticket cannot be built is refused as a whole. -/
def ticketGroup (venueAccount : String) (stamp : Stamp) (c : Contract) (b : Batch)
    (g : Terms × List (NOrder × Nat)) : R Batch :=
  let group := g.2.map (·.1)
  match group with
  | [] => pure b
  | first :: _ =>
    match makeTicket A sha256 venueAccount (.single c) g.1.orderType g.1.tif g.1.limit first.side group
      stamp with
    | .ok t => pure { b with venueOrders := b.venueOrders ++ [t] }
    | .error e =>
      if e.kind = .value then do
        let reasons ← group.mapM fun o => do
          let symbol ← c.symbol
          pure (o.orderId, s!"ticket for {symbol} refused: {e.msg}")
        pure { b with refused := b.refused ++ reasons }
      else .error e

def ticketContract (venueAccount : String) (stamp : Stamp) (b : Batch)
    (e : Contract × List (NOrder × Nat)) : R Batch :=
  (groupTerms e.2).entries.foldlM (ticketGroup A sha256 venueAccount stamp e.1) b

/-- A vertical is a ticket of its own. -/
def ticketVertical (venueAccount : String) (stamp : Stamp) (b : Batch) (x : NOrder × Nat) : R Batch :=
  let o := x.1
  match o.instrument with
  | .known i => do
    let t ← makeTicket A sha256 venueAccount i o.orderType o.tif o.limitPrice o.side [o] stamp
    pure { b with venueOrders := b.venueOrders ++ [t] }
  | .other _ => wireErr "a screened order has a model instrument"

/-- Every input order ends in exactly one outcome. -/
def accountForEverything (expected outcomes : List String) : R Unit :=
  let a := sortTexts outcomes
  let b := sortTexts expected
  refuseIf (a ≠ b) .netting
    s!"netting lost or duplicated an order: inputs {pyList b} vs outcomes {pyList a} (I11)"

def Batch.outcomes (b : Batch) : List String :=
  b.venueOrders.flatMap (fun t => t.allocations.map (·.strategyOrderId)) ++ b.refused.map (·.1)

/-- Net one batch into venue tickets; refuse what the venue cannot hold. -/
def netStrategyOrders (orders : List NOrder) (venueAccount : String) (mirrored : List String)
    (stamp : Stamp) (holdings : OMap (String × Contract) Money) : R Batch := do
  refuseIf (orders = []) .netting "no strategy orders to net"
  let s ← orders.zipIdx.foldlM (netOrder A mirrored.dedup holdings) .start
  let b ← s.accepted.entries.foldlM (ticketContract A sha256 venueAccount stamp) ⟨[], s.refused⟩
  let b ← s.verticals.foldlM (ticketVertical A sha256 venueAccount stamp) b
  accountForEverything (orders.map (·.orderId)) b.outcomes
  pure b

end TradeEngine.Tos
