import TradeEngine.Ledger.Mirror

/-!
# Positions, lots and trades

A position is a signed quantity, an average cost and the open lots behind them. A trade opens lots,
adds to them, or consumes them first in, first out, and may flip the position through zero.
-/

namespace TradeEngine

open Lib

def fe {α : Type} (msg : String) : R α := err .fold msg

structure Position where
  accountId : String
  instrument : Instrument
  quantity : Money
  avgCost : Money
  realizedPnl : Money
  openLots : List Lot

variable (A : Arith)

/-! ## Lots -/

/-- A lot's quantity with its sign. -/
def signedLot (lot : Lot) : R Money :=
  if lot.side = .buy then .ok lot.quantity else Ops.neg A lot.quantity

def signedTotal (lots : List Lot) : R Money :=
  lots.foldlM (fun total lot => do Ops.add A total (← signedLot A lot)) .zero

def costTotal (lots : List Lot) : R Money :=
  lots.foldlM (fun total lot => do Ops.add A total (← Ops.mul A lot.costBasis lot.quantity)) .zero

/-- The quantity of a position with lots is their signed total. -/
def checkLots (quantity : Money) (lots : List Lot) : R Unit :=
  if lots = [] then .ok ()
  else do
    let signed ← signedTotal A lots
    refuseIf (signed.ne quantity) .value
      (s!"Position quantity {quantity.canon} disagrees with open lots total" ++
        s!" {signed.canon} (I2)")

/-- `Position.__post_init__`. -/
def makePosition (accountId : String) (instrument : Instrument)
    (quantity avgCost realizedPnl : Money) (openLots : List Lot) : R Position := do
  refuseIf (accountId = "") .value "account_id must be non-empty"
  checkLots A quantity openLots
  pure ⟨accountId, instrument, quantity, avgCost, realizedPnl, openLots⟩

def lotWith (lot : Lot) (quantity : Money) : R Lot :=
  makeLot lot.lotId quantity lot.costBasis lot.acquiredAt lot.side

/-- Profit of closing `closed` units of a lot at a price. -/
def closePnl (lot : Lot) (closed exitPrice : Money) (multiplier : Int) : R Money := do
  let per ← (if lot.side = .buy then Ops.sub A exitPrice lot.costBasis
    else Ops.sub A lot.costBasis exitPrice)
  Ops.mulI A (← Ops.mul A per closed) multiplier

/-- The loop of `consumeLots`: what is kept, what remains to close, and the profit so far. -/
def consumeLoop (exitPrice : Money) (multiplier : Int) :
    List Lot → Money → Money → R (List Lot × Money × Money)
  | [], remaining, realized => .ok ([], remaining, realized)
  | lot :: lots, remaining, realized =>
    if remaining.le .zero then do
      let out ← consumeLoop exitPrice multiplier lots remaining realized
      pure (lot :: out.1, out.2)
    else if lot.quantity.le remaining then do
      let left ← Ops.sub A remaining lot.quantity
      let pnl ← closePnl A lot lot.quantity exitPrice multiplier
      consumeLoop exitPrice multiplier lots left (← Ops.add A realized pnl)
    else do
      let part ← lotWith lot (← Ops.sub A lot.quantity remaining)
      let pnl ← closePnl A lot remaining exitPrice multiplier
      let out ← consumeLoop exitPrice multiplier lots .zero (← Ops.add A realized pnl)
      pure (part :: out.1, out.2)

def checkShort (remaining : Money) : R Unit :=
  refuseIf (remaining.ne .zero) .fold
    s!"Open lots ran short by {remaining.canon}; ledger is inconsistent (I2)"

/-- Close `quantity` of the lots, first in first out: what is kept and the profit. -/
def consumeLots (lots : List Lot) (quantity exitPrice : Money) (multiplier : Int) :
    R (List Lot × Money) := do
  let out ← consumeLoop A exitPrice multiplier lots quantity .zero
  checkShort out.2.1
  pure (out.1, out.2.2)

/-- The loop of `takeLots`: what is kept, what is taken, what remains to take. -/
def takeLoop : List Lot → Money → R (List Lot × List Lot × Money)
  | [], remaining => .ok ([], [], remaining)
  | lot :: lots, remaining =>
    if remaining.le .zero then do
      let out ← takeLoop lots remaining
      pure (lot :: out.1, out.2)
    else do
      let part := if remaining.lt lot.quantity then remaining else lot.quantity
      let taken ← lotWith lot part
      let kept ← (if part.lt lot.quantity then
          (fun l => [l]) <$> (do lotWith lot (← Ops.sub A lot.quantity part))
        else pure [])
      let out ← takeLoop lots (← Ops.sub A remaining part)
      pure (kept ++ out.1, taken :: out.2.1, out.2.2)

/-- Split `quantity` off the lots, first in first out, without closing it. -/
def takeLots (lots : List Lot) (quantity : Money) : R (List Lot × List Lot) := do
  let out ← takeLoop A lots quantity
  checkShort out.2.2
  pure (out.1, out.2.1)

def remainingPosition (p : Position) (lots : List Lot) (realized : Money) : R Position := do
  let quantity ← signedTotal A lots
  let avg ← (if quantity.ne .zero then do
      Ops.div A (← costTotal A lots) (← Ops.abs A quantity)
    else pure .zero)
  makePosition A p.accountId p.instrument quantity avg realized lots

/-! ## Trades -/

/-- The trade applied to a position: where it is filed, what was bought or sold, and when. -/
structure Trade where
  instrument : Instrument
  side : Side
  quantity : Money
  price : Money
  atTime : DateTime
  lotId : String
  multiplier : Int

/-- The lot a trade opens for `quantity` units. -/
def Trade.lot (t : Trade) (quantity : Money) : R Lot :=
  makeLot t.lotId quantity t.price t.atTime t.side

def openTrade (accountId : String) (carried signedDelta : Money) (t : Trade) : R Position := do
  let lot ← t.lot t.quantity
  makePosition A accountId t.instrument signedDelta t.price carried [lot]

def increaseTrade (accountId : String) (p : Position) (signedDelta : Money) (t : Trade) :
    R Position := do
  let newQty ← Ops.add A p.quantity signedDelta
  let newLot ← t.lot t.quantity
  let held ← Ops.mul A p.avgCost (← Ops.abs A p.quantity)
  let weighted ← Ops.add A held (← Ops.mul A t.price t.quantity)
  let newAvg ← Ops.div A weighted (← Ops.abs A newQty)
  makePosition A accountId t.instrument newQty newAvg p.realizedPnl (p.openLots ++ [newLot])

/-- Close against the lots; what goes past them flips the position into one new lot. -/
def reduceTrade (accountId : String) (p : Position) (signedDelta : Money) (t : Trade) :
    R Position := do
  let a ← Ops.abs A signedDelta
  let b ← Ops.abs A p.quantity
  let closing := if b.lt a then b else a
  let closed ← consumeLots A p.openLots closing t.price t.multiplier
  let realized ← Ops.add A p.realizedPnl closed.2
  let newQty ← Ops.add A p.quantity signedDelta
  if a.gt b then
    let newLot ← t.lot (← Ops.sub A a b)
    makePosition A accountId t.instrument newQty t.price realized [newLot]
  else if newQty.eqNum .zero then
    makePosition A accountId t.instrument newQty .zero realized closed.1
  else
    let newAvg ← Ops.div A (← costTotal A closed.1) (← Ops.abs A newQty)
    makePosition A accountId t.instrument newQty newAvg realized closed.1

def applyTrade (accountId : String) (position : Option Position) (t : Trade) : R Position := do
  let signedDelta ← (if t.side = .buy then pure t.quantity else Ops.neg A t.quantity)
  match position with
  | none => openTrade A accountId .zero signedDelta t
  | some p =>
    if p.quantity.eqNum .zero then openTrade A accountId p.realizedPnl signedDelta t
    else if p.quantity.gt .zero = signedDelta.gt .zero then
      increaseTrade A accountId p signedDelta t
    else reduceTrade A accountId p signedDelta t

/-! ## Multipliers -/

def Contract.multiplier : Contract → R Int
  | .equity _ => .ok 1
  | .option c => .ok c.multiplier
  | .future _ => fe "futures not supported in ledger fold (I6)"

/-- A combo is valued as one instrument only when its legs share one multiplier. -/
def Instrument.multiplier : Instrument → R Int
  | .single c => c.multiplier
  | .combo legs => do
    let mults := ((← legs.mapM (·.contract.multiplier)).dedup).insertionSort (· ≤ ·)
    match mults with
    | [m] => pure m
    | _ =>
      let listed := ", ".intercalate (mults.map toString)
      fe ("Cannot value a mixed-multiplier combo as one instrument; value it per leg: Combo has" ++
        s!" mixed leg multipliers [{listed}]; value it per leg (I6)")

end TradeEngine
