import TradeEngine.Ledger.Fold
import TradeEngine.Margin.Account

/-!
# Daily account snapshots

One snapshot of an account at each session close, a date on which it has marks. The state at a close is a fold of
the events written up to the latest mark of that date; peaks and drawdown run over the snapshots.
-/

namespace TradeEngine.Daily

open Lib Margin

/-- An event of the log; `asOf` is the time its payload carries, where it is a mark. -/
structure Logged where
  event : Event
  asOf : DateTime

def Logged.isMark (e : Logged) : Bool :=
  match e.event.payload with
  | .mark _ => true
  | _ => false

inductive SnapshotError where
  | noAsOf (kind : String)
  | noSessionCloseMark (symbol : String)
  | noSessionCloseMarkOpenPosition (symbol : String)
  | margin (e : MarginError)
  | ledger (message : String)
  | overflow
  | value (message : String)
  /-- The subtraction of two decimals that are not checked. -/
  | panicked
deriving DecidableEq

abbrev S (α : Type) := Except SnapshotError α

/-! ## Open risk -/

/-- Working: a stop on the side that reduces may still trade. -/
def working : OrderState → Bool
  | .new | .submitted | .accepted | .partiallyFilled => true
  | _ => false

/-- A working stop of the instrument on the side. -/
def isProtective (instrument : Instrument) (side : Side) (o : Order) : Bool :=
  o.instrument.same instrument && o.stopPrice.isSome && (o.orderType = .stop || o.orderType = .stopLimit) &&
    working o.state && o.side = side

/-- The last working stop wins. -/
def protectiveStopForSide (st : AccountState) (instrument : Instrument) (side : Side) : Option Money :=
  (st.orders.values.filter (isProtective instrument side)).getLast?.bind (·.stopPrice)

/-- The stop price of a working order on the side that reduces the position. -/
def protectiveStop (st : AccountState) (instrument : Instrument) : Option Money :=
  (st.positions.get instrument.hk).bind fun p =>
    if p.quantity.isZero then none
    else protectiveStopForSide st instrument (if p.quantity.isNegative then .buy else .sell)

/-- The positions by symbol; one that has none is sorted as if it were empty. -/
def sortedPositions (st : AccountState) : List (Instrument × Position) :=
  st.positions.entries.insertionSort fun a b =>
    ¬ (b.1.symbol.toOption.getD "") < (a.1.symbol.toOption.getD "")

section
variable {D : Type} [AccountDecimal D]

open AccountDecimal (ofMoney)

def checkedOp (x : Option D) : S D := x.elim (.error .overflow) .ok

/-- One position's risk from its mark to its stop. -/
def positionRisk (st : AccountState) (acc : D × List String) (e : Instrument × Position) : S (D × List String) := do
  if e.2.quantity.isZero then pure acc
  else do
    let symbol ← e.1.symbol.mapError fun x => .value x.msg
    match (st.marks.get e.1.hk).filter fun m => !m.isZero && !m.isNegative with
    | none => .error (.noSessionCloseMark symbol)
    | some mark =>
      match protectiveStop st e.1 with
      | none => pure (acc.1, acc.2 ++ [symbol])
      | some stop => do
        let risk ← checkedOp (if e.2.quantity.isNegative then Decimal.sub (ofMoney stop) (ofMoney mark)
          else Decimal.sub (ofMoney mark) (ofMoney stop))
        let risk ← checkedOp (Decimal.mul risk (Decimal.abs (ofMoney e.2.quantity)))
        pure (← checkedOp (Decimal.add acc.1 risk), acc.2)

/-- The risk of the open positions that have a stop, and the symbols of those that have none. -/
def workingStopRisk (st : AccountState) : S (D × List String) :=
  (sortedPositions st).foldlM (positionRisk st) (0, [])

/-! ## Margin of a folded state -/

/-- An option's contract is in the table once. -/
def addContract (table : List OptionContract) (e : Instrument × Position) : List OptionContract :=
  match e.1 with
  | .single (.option c) =>
    if table.any fun d => (TradeEngine.Contract.option d).hk = (TradeEngine.Contract.option c).hk then table
    else table ++ [c]
  | _ => table

def marginContract (c : OptionContract) : S (Margin.Contract D) := do
  let occ ← (c.occ.mapError oerr).mapError fun x => .value x.msg
  let style ← match optionStyle c.underlying with
    | .ok s => pure (Margin.Style.resolved s.underlying (s.settlement = .cash))
    | .error (.unresolvable message) => pure (Margin.Style.unresolved message)
    | .error e => .error (.value (oerr e).msg)
  if c.multiplier ≤ 0 then .error (.value s!"Multiplier must be positive, got {c.multiplier}")
  else
    pure
      { root := c.underlying, expiry := c.expiry, strike := ofMoney c.strike, right := c.right
        multiplier := .ofInt c.multiplier, occ := strip occ, style := style }

/-- The contract's place in the table. -/
def contractAt (n : Nat) (table : List OptionContract) (c : OptionContract) : Option (Fin n) :=
  let i := table.findIdx fun d => (TradeEngine.Contract.option d).hk = (TradeEngine.Contract.option c).hk
  if h : i < n then some ⟨i, h⟩ else none

def wirePosition (n : Nat) (table : List OptionContract) (st : AccountState) (e : Instrument × Position) :
    S (AccountPosition n D) := do
  let symbol ← e.1.symbol.mapError fun x => .value x.msg
  let (kind, multiplier, contract, avgCost) := match e.1 with
    | .combo _ => (PositionKind.combo, (1 : Int64), none, none)
    | .single (.option c) => (.option, .ofInt c.multiplier, contractAt n table c, some (ofMoney e.2.avgCost))
    | .single (.equity _) => (.equity, 1, none, none)
    | .single (.future _) => (.equity, 1, none, none)
  pure
    { symbol := symbol, kind := kind, quantity := ofMoney e.2.quantity, mark := (st.marks.get e.1.hk).map ofMoney
      multiplier := multiplier, flat := e.2.quantity.isZero, contract := contract, avgCost := avgCost }

/-- The mark of an equity, by its symbol. -/
def equityMark (st : AccountState) (symbol : String) : Option D :=
  ((st.marks.entries.filter fun e => e.1 = .single (.equity symbol)).getLast?).map fun e => ofMoney e.2

def noMarkText : String := "No session-close mark for open position "

def MarginError.message : MarginError → String
  | .value m | .option m | .unresolvable m => m

/-- A missing mark is told apart by the text of the refusal. -/
def marginRefusal (e : MarginError) : SnapshotError :=
  let text := (MarginError.message e).toList
  if noMarkText.toList.isPrefixOf text then
    let rest := text.drop noMarkText.length
    if " (I5)".toList.isSuffixOf rest then .noSessionCloseMarkOpenPosition (.ofList (rest.take (rest.length - 5)))
    else .noSessionCloseMarkOpenPosition (MarginError.message e)
  else .margin e

def defaultSearchLimit : Nat := 20000

/-- What the snapshot reads of an account's margin. -/
structure Reading (D : Type) where
  equity : D
  cash : D
  grossExposure : D
  netExposure : D
  marginMaintenance : D

def computeAccountMargin (overrides : String → Option (D × D)) (st : AccountState) : S (Reading D) := do
  let positions := sortedPositions st
  let _ ← positions.mapM fun e => e.1.symbol.mapError fun x => SnapshotError.value x.msg
  let table := positions.foldl addContract []
  let contracts ← table.mapM (marginContract (D := D))
  let wired ← positions.mapM (wirePosition (D := D) contracts.length table st)
  let input : AccountInput contracts.length D :=
    { cash := ofMoney st.cash, positions := wired, contracts := contracts.get, equityMarks := equityMark st
      underlyingPrices := fun _ => none, overrides := overrides, definitions := definitions
      searchLimit := defaultSearchLimit }
  let m ← (accountMargin input).mapError marginRefusal
  pure ⟨m.equity, m.cash, m.grossExposure, m.netExposure, m.marginMaintenance⟩

/-! ## One snapshot a session -/

structure AccountSnapshot (D : Type) where
  session : NaiveDate
  equity : D
  cash : D
  grossExposure : D
  netExposure : D
  marginUsed : D
  marginAvailable : D
  marginPeak : D
  heat : D
  heatUnknownPositions : List String
  drawdownFromPeak : D
  drawdownDurationSessions : Nat

/-- Of one instant or an earlier one. -/
def notAfter (t u : DateTime) : Prop := toLex t.instant ≤ toLex u.instant

instance (t u : DateTime) : Decidable (notAfter t u) := inferInstanceAs (Decidable (toLex t.instant ≤ toLex u.instant))

/-- The dates of the marks, each once, in order. -/
def closes (log : List Logged) : List NaiveDate :=
  (((log.filter (·.isMark)).map (·.asOf.date)).dedup).insertionSort fun a b => a.numDaysFromCe ≤ b.numDaysFromCe

/-- The first of two times that are one instant. -/
def laterStamp (best : Option DateTime) (e : Logged) : Option DateTime :=
  if best.any (notAfter e.asOf ·) then best else some e.asOf

/-- The latest mark time of a date. -/
def closeStamp (log : List Logged) (session : NaiveDate) : Option DateTime :=
  (log.filter fun e => e.isMark && e.asOf.date = session).foldl laterStamp none

/-- Written in this order: by time, then by sequence number. -/
def writtenBefore (a b : Logged) : Prop :=
  toLex (toLex a.event.tsUtc.instant, a.event.seq.getD 0) ≤ toLex (toLex b.event.tsUtc.instant, b.event.seq.getD 0)

instance : DecidableRel writtenBefore := fun _ _ => inferInstanceAs (Decidable (toLex _ ≤ toLex _))

def written (log : List Logged) : List Logged := log.insertionSort writtenBefore

/-- The cursor moves past what was written by the stamp, and never back. -/
def advance (events : List Logged) (stamp : DateTime) (upto : Nat) : Nat :=
  upto + ((events.drop upto).takeWhile fun e => decide (notAfter e.event.tsUtc stamp)).length

/-- What the loop over the sessions carries. -/
structure History (D : Type) where
  snapshots : List (AccountSnapshot D)
  peakMargin : Option D
  peakEquity : Option D
  ddStart : Option Nat
  upto : Nat

def History.new : History D := ⟨[], none, none, none, 0⟩

/-- The larger of a peak there may be and a figure. -/
def raise (peak : Option D) (figure : D) : D := peak.elim figure fun p => if p < figure then figure else p

def drawdown (peak equity : D) : S D :=
  if 0 < peak ∧ equity < peak then (Decimal.sub peak equity).elim (.error .panicked) .ok else pure 0

/-- The snapshot of a folded state, with the peaks it moves. -/
def History.add (x : History D) (session : NaiveDate) (index : Nat) (m : Reading D) (heat : S (D × List String)) :
    S (History D) := do
  let (used, available) ← (marginSummary m.equity m.marginMaintenance).mapError .margin
  let peakMargin := raise x.peakMargin used
  let ddStart := if x.peakEquity.all (· < m.equity) then none else x.ddStart
  let peakEquity := raise x.peakEquity m.equity
  let dd ← drawdown peakEquity m.equity
  let ddStart := if 0 < dd ∧ ddStart = none then some index else ddStart
  let (heat, unknown) ← heat
  let snapshot : AccountSnapshot D :=
    { session := session, equity := m.equity, cash := m.cash, grossExposure := m.grossExposure
      netExposure := m.netExposure, marginUsed := used, marginAvailable := available, marginPeak := peakMargin
      heat := heat, heatUnknownPositions := unknown, drawdownFromPeak := dd
      drawdownDurationSessions := ddStart.elim 0 (index - ·) }
  pure { x with
    snapshots := x.snapshots ++ [snapshot]
    peakMargin := some peakMargin
    peakEquity := some peakEquity
    ddStart := ddStart }

variable (A : Arith) (overrides : String → Option (D × D)) (account : String)

/-- One session close over the account's log. -/
def closeSession (log : List Logged) (x : History D) (e : NaiveDate × Nat) : S (History D) :=
  match closeStamp log e.1 with
  | none => .error (.noAsOf EventKind.mark.value)
  | some stamp => do
    let upto := advance (written log) stamp x.upto
    let x := { x with upto := upto }
    let st ← (foldAccount A (((written log).take upto).map (·.event)) account).mapError fun e => .ledger e.msg
    if st.marks.items.isEmpty then pure x
    else do
      let m ← computeAccountMargin overrides st
      x.add e.1 e.2 m (workingStopRisk st)

/-- The snapshots of one account. -/
def dailySnapshots (events : List Logged) : S (List (AccountSnapshot D)) := do
  let log := events.filter (·.event.account = account)
  let x ← (closes log).zipIdx.foldlM (closeSession A overrides account log) .new
  pure x.snapshots

end

end TradeEngine.Daily
