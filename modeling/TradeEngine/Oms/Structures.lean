import TradeEngine.Oms.Plan
import TradeEngine.Sim.Venue

/-!
# Open structures and uncovered calls

The options structures a folded account holds, and the shares its short calls would deliver with no
long call behind them.
-/

namespace TradeEngine.Oms

open Lib
open Sim (dmin dmax)

/-! ## Instruments -/

def isOption : Contract → Bool
  | .option _ => true
  | _ => false

/-- A contract, or a combo of contracts only. -/
def isStructure : Instrument → Bool
  | .single c => isOption c
  | .combo legs => legs.all fun l => isOption l.contract

/-- A combo's own legs, or one leg of a single instrument. -/
def legsOf (i : Instrument) (side : Side) : List ComboLeg :=
  match i with
  | .combo legs => legs
  | .single c => [⟨c, 1, side, Int.one_pos⟩]

/-- The underlying whose shares a contract delivers. -/
def underlyingOf (c : OptionContract) : R String :=
  ((optionStyle c.underlying).map (·.underlying)).mapError oerr

def contractMultiplier : Contract → R Int
  | .equity _ => .ok 1
  | .option c => .ok c.multiplier
  | .future _ => err .unsupported "futures not supported in OMS multiplier"

def multiplier : Instrument → R Int
  | .single c => contractMultiplier c
  | .combo legs => do
    let found := ((← legs.mapM (contractMultiplier ·.contract)).dedup).insertionSort (· ≤ ·)
    match found with
    | [m] => pure m
    | _ =>
      let shown := ", ".intercalate (found.map toString)
      err .value s!"Combo has mixed leg multipliers [{shown}]; value it per leg (I6)"

/-! ## Open structures -/

structure Open where
  entryOrderId : String
  commandId : String
  openQuantities : List Money
  units : Money
  entryPrice : Money
  openedFill : Nat
  targetOrderId : Option String
  closingOrderId : Option String

variable (A : Arith)

/-- What one fill of an entry collected, over its instrument's multiplier. -/
def collectedBy (f : Fill) : R Money := do
  let signed ← (if f.side = .sell then pure f.price else Ops.neg A f.price : R Money)
  Ops.mulI A (← Ops.mul A signed f.quantity) (← multiplier f.instrument)

/-- Net per unit in option points, positive: the credit collected or the debit paid. -/
def entryPrice (st : AccountState) (entry : Order) (units : Money) : R Money := do
  let scale ← (match (legsOf entry.instrument entry.side).head? with
    | some leg => contractMultiplier leg.contract
    | none => err .value "a structure with no legs" : R Int)
  let collected ← (st.fills.filter (·.orderId = entry.orderId)).foldlM
    (fun total f => do Ops.add A total (← collectedBy A f)) Money.zero
  let collected ← Ops.div A collected (← Ops.mulI A units scale)
  if entry.side = .sell then pure collected else Ops.neg A collected

/-- What is still open of one leg: what its structure has open, no more than is held on its side. -/
def openQuantity (st : AccountState) (units : Money) (leg : ComboLeg) : R Money := do
  let held := ((st.positions.get leg.contract.hk).map Position.quantity).getD .zero
  let onSide ← (if leg.side = .buy then pure (dmax held .zero)
    else do pure (dmax (← Ops.neg A held) .zero) : R Money)
  pure (dmin (← Ops.mulI A units leg.ratio) onSide)

/-- The place of the first of the earliest fills of an order. -/
def openedAt (st : AccountState) (entry : String) : Option Nat :=
  (st.fills.zipIdx.filter (·.1.orderId = entry)).foldl (fun best f =>
    match best with
    | none => some f
    | some b =>
      let bt := b.1.filledAt.instant
      let ft := f.1.filledAt.instant
      if bt.1 < ft.1 ∨ (bt.1 = ft.1 ∧ bt.2 ≤ ft.2) then some b else some f) none |>.map (·.2)

/-- One order as an open structure, if anything of it is still held. -/
def openStructure (st : AccountState) (entry : Order) : R (Option Open) :=
  let entered := st.filled entry.orderId
  let children := st.orders.values.filter (·.parentOrderId = some entry.orderId)
  if entry.parentOrderId.isSome || !isStructure entry.instrument || entered.mantissa ≤ 0 then pure none
  else do
    let closed ← children.foldlM (fun total o => Ops.add A total (st.filled o.orderId)) Money.zero
    let units ← Ops.sub A entered closed
    if units.mantissa ≤ 0 then pure none
    else do
      let quantities ← (legsOf entry.instrument entry.side).mapM (openQuantity A st units)
      if quantities.all (·.isZero) then pure none
      else do
        let working := children.filter fun o => !terminal o.state
        let price ← entryPrice A st entry entered
        match openedAt st entry.orderId with
        | none => err .value "min() iterable argument is empty"
        | some opened =>
          pure (some
            { entryOrderId := entry.orderId
              commandId := ((entry.orderId.dropSuffix? ":entry").map (·.toString)).getD entry.orderId
              openQuantities := quantities
              units := units
              entryPrice := price
              openedFill := opened
              targetOrderId :=
                (working.find? (·.orderId = entry.orderId ++ ":target")).map (·.orderId)
              closingOrderId :=
                (working.find? ((entry.orderId ++ ":close:").isPrefixOf ·.orderId)).map (·.orderId) })

/-- Every structure with a leg still held, in entry order id order. -/
def openStructures (st : AccountState) : R (List Open) := do
  let entries := st.orders.values.insertionSort fun a b => (compare a.orderId b.orderId != .gt) = true
  pure ((← entries.mapM (openStructure A st)).filterMap id)

/-! ## Uncovered calls -/

/-- Calls with their underlying and amount, and the shares free of each symbol. -/
structure Exposure where
  shorts : List (String × OptionContract × Money)
  longs : List (String × OptionContract × Money)
  shares : OMap String Money

/-- The contracts of every structure whose close is working. -/
def closingContracts (st : AccountState) : R (List Contract) := do
  let closing := (← openStructures A st).filter (·.closingOrderId.isSome)
  let legs ← closing.mapM fun s => match st.orders.get s.entryOrderId with
    | some entry => pure ((legsOf entry.instrument entry.side).map (·.contract))
    | none => err .value "entry"
  pure legs.flatten

/-- One held position: shares, a short call or a long call. -/
def bookPosition (closing : List Contract) (x : Exposure) (e : Instrument × Position) : R Exposure :=
  let q := e.2.quantity
  match e.1 with
  | .single (.equity symbol) => do
    let free := (x.shares.get symbol).getD .zero
    pure { x with shares := x.shares.put symbol (← Ops.add A free (dmax q .zero)) }
  | .single (.option c) =>
    if c.right ≠ .call ∨ q.mantissa = 0 ∨ (q.mantissa < 0 ∧ .option c ∈ closing) then pure x
    else do
      let item := (← underlyingOf c, c, ← Ops.abs A q)
      pure (if q.mantissa < 0 then { x with shorts := x.shorts ++ [item] }
        else { x with longs := x.longs ++ [item] })
  | _ => pure x

/-- A leg of an entry still working that will sell calls needs its cover now. -/
def bookLeg (st : AccountState) (o : Order) (x : Exposure) (leg : ComboLeg) : R Exposure :=
  match leg.contract with
  | .option c =>
    if leg.side = .sell ∧ c.right = .call then do
      let key ← underlyingOf c
      let q ← Ops.mulI A (← Ops.sub A o.quantity (st.filled o.orderId)) leg.ratio
      pure { x with shorts := x.shorts ++ [(key, c, q)] }
    else pure x
  | _ => pure x

/-- One working order: shares it is selling, or calls its entry will sell. -/
def bookOrder (st : AccountState) (x : Exposure) (o : Order) : R Exposure :=
  if terminal o.state then pure x
  else match o.instrument, o.side with
    | .single (.equity symbol), .sell => do
      let remaining ← Ops.sub A o.quantity (st.filled o.orderId)
      let free := (x.shares.get symbol).getD .zero
      pure { x with shares := x.shares.put symbol (← Ops.sub A free remaining) }
    | i, side =>
      if o.parentOrderId.isNone && isStructure i then (legsOf i side).foldlM (bookLeg A st o) x
      else pure x

/-- Whether a long call expires no earlier than a short one. -/
def outlasts (long short : OptionContract) : Bool :=
  short.expiry.numDaysFromCe ≤ long.expiry.numDaysFromCe

/-- One short call against the long calls: what it still needs, and what they have left. -/
def takeCover (short : OptionContract) : Money → List (OptionContract × Money) →
    R (Money × List (OptionContract × Money))
  | need, [] => .ok (need, [])
  | need, (long, free) :: rest =>
    if need.isZero then .ok (need, (long, free) :: rest)
    else if outlasts long short && decide (0 < free.mantissa) then do
      let used := dmin need free
      let free ← Ops.sub A free used
      let (need, rest) ← takeCover short (← Ops.sub A need used) rest
      pure (need, (long, free) :: rest)
    else do
      let (need, rest) ← takeCover short need rest
      pure (need, (long, free) :: rest)

/-- One short call of `uncovered_calls`: the shares it delivers with no long call behind it. -/
def coverOne (acc : Money × List (OptionContract × Money)) (short : OptionContract × Money) :
    R (Money × List (OptionContract × Money)) := do
  let (need, free) ← takeCover A short.1 short.2 acc.2
  pure (← Ops.add A acc.1 (← Ops.mulI A need short.1.multiplier), free)

/-- The calls of one underlying. -/
def callsOn (name : String) (l : List (String × OptionContract × Money)) :
    List (OptionContract × Money) := (l.filter (·.1 = name)).map (·.2)

/-- The shares of one underlying short calls deliver with no long call behind them, latest expiry
first: a long call that covers it covers every earlier short too. -/
def uncoveredOn (x : Exposure) (name : String) : R (String × Money × Money) := do
  let shorts := (callsOn name x.shorts).insertionSort fun a b => outlasts a.1 b.1 = true
  let (uncovered, _) ← shorts.foldlM (coverOne A) (Money.zero, callsOn name x.longs)
  pure (name, uncovered, dmax ((x.shares.get name).getD .zero) .zero)

def exposure (st : AccountState) (closing : List Contract) : R Exposure := do
  let held ← st.positions.entries.foldlM (bookPosition A closing) ⟨[], [], .empty⟩
  st.orders.values.foldlM (bookOrder A st) held

/-- Per underlying, ascending: the shares uncovered short calls deliver, and the shares free. -/
def uncoveredCalls (st : AccountState) (closingCounts : Bool) : R (List (String × Money × Money)) := do
  let closing ← (if closingCounts then pure [] else closingContracts A st : R (List Contract))
  let x ← exposure A st closing
  let names := ((x.shorts.map (·.1) ++ x.shares.entries.map (·.1)).dedup).insertionSort
    fun a b => (compare a b != .gt) = true
  names.mapM (uncoveredOn A x)

end TradeEngine.Oms
