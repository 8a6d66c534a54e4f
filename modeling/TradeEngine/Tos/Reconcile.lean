import TradeEngine.Tos.Netting

/-!
# Venue reconcile and read-back

The drift check that halts a venue, and what the read-back of one sent ticket proves.
-/

namespace TradeEngine.Tos

open Lib

variable (A : Arith)

/-- One contract's signed total, the first key spelling kept. -/
abbrev Book := OMap Contract Money

structure Row where
  contract : Contract
  side : Side
  quantity : Money
  filled : Money
  orderType : OrderType
  limitPrice : Option Money
  state : OrderState
deriving DecidableEq

def live : OrderState → Bool
  | .submitted | .accepted | .partiallyFilled => true
  | _ => false

def Row.live (r : Row) : Bool := Tos.live r.state

def Book.have (b : Book) (c : Contract) : Money := (b.get c.hk).getD .zero

def Book.add (b : Book) (c : Contract) (q : Money) : R Book := do
  pure (b.insert c.hk c (← Ops.add A (b.have c) q))

def positionBook (positions : List (Contract × Money)) : R Book :=
  positions.foldlM (fun b p => b.add A p.1 p.2) .empty

/-! ## Drift -/

/-- The `VenueReconcile` event as the ledger's constructor builds it. -/
def venueReconcile (venue : String) (asOf : Stamp) (reconciled : Bool) (drift : List String)
    (note : Option String) : R VenueReconcile :=
  if hv : venue = "" then err .payload "VenueReconcile.venue must be non-empty"
  else do
    let t ← requireAware asOf .payload
      "VenueReconcile.as_of must be timezone-aware UTC datetime (I7)"
    if hr : reconciled = true ∧ drift ≠ [] then
      err .payload "VenueReconcile cannot be reconciled while listing drift instruments"
    else if hd : reconciled = false ∧ drift = [] then
      err .payload "VenueReconcile that is not reconciled must name the drifting instruments (I11)"
    else
      .ok ⟨venue, t, reconciled, drift, note, hv, by
        cases reconciled <;> simp_all⟩

/-- Live remainders of the working rows, and the contracts with a row in an unknown state. -/
def resting (working : List Row) : R (Book × OMap Contract Unit) :=
  working.foldlM (fun acc row =>
    if row.state = .pendingUnknown then
      pure (acc.1, acc.2.insert row.contract.hk row.contract ())
    else if row.live then do
      let remaining ← signedBy A row.side (← Ops.sub A row.quantity row.filled)
      pure (← acc.1.add A row.contract remaining, acc.2)
    else pure acc) (.empty, .empty)

/-- Whether one contract drifts: an unknown row, or a position and remainder other than expected. -/
def drifts (expected held rest : Book) (unknown : OMap Contract Unit) (c : Contract) : R Bool := do
  let total ← Ops.add A (held.have c) (rest.have c)
  pure (unknown.contains c.hk || total.ne (expected.have c))

/-- Per contract, the venue position plus the live remainder is what the mirror expects. -/
def reconcile (venue : String) (asOf : Stamp) (expected : Book) (positions : List (Contract × Money))
    (working : List Row) : R VenueReconcile := do
  let held ← positionBook A positions
  let (rest, unknown) ← resting A working
  let contracts := (expected.entries.map (·.1) ++ held.entries.map (·.1) ++ rest.entries.map (·.1) ++
    unknown.entries.map (·.1)).foldl (fun m c => m.insert c.hk c ()) (OMap.empty : OMap Contract Unit)
  let drift ← (contracts.entries.map (·.1)).foldlM (fun names c => do
    if ← drifts A expected held rest unknown c then pure (names ++ [← c.symbol]) else pure names) []
  if drift ≠ [] then
    venueReconcile venue asOf false (sortTexts drift)
      (some "venue positions + working orders disagree with the mirror book; venue halted")
  else venueReconcile venue asOf true [] none

def unreadable (venue : String) (asOf : Stamp) (contracts : List Contract) (why : String) :
    R VenueReconcile := do
  let symbols ← contracts.mapM Contract.symbol
  let names := sortTexts symbols.dedup
  venueReconcile venue asOf false (if names = [] then ["<venue unreadable>"] else names)
    (some s!"cannot read the venue ({why}); refusing to assume it matches (I5)")

/-! ## Read-back -/

/-- Signed contracts `units` of a ticket put on the venue, legs as written. -/
def ticketContracts (i : Instrument) (side : Side) (units : Money) : R Book :=
  match i with
  | .combo legs =>
    legs.foldlM (fun out leg => do
      let v ← signedBy A leg.side (← Ops.mulI A units leg.ratio)
      pure (out.insert leg.contract.hk leg.contract v)) .empty
  | .single c => do pure (OMap.empty.insert c.hk c (← signedBy A side units))

def findRow (p : Row → R Bool) (skip : List Nat) : List (Row × Nat) → R (Option Nat)
  | [] => pure none
  | (row, i) :: rest =>
    if i ∈ skip then findRow p skip rest
    else do if ← p row then pure (some i) else findRow p skip rest

def ticketRow (t : Ticket) (row : Row) : Bool :=
  .single row.contract = t.instrument && row.side = t.side && row.quantity.eqNum t.quantity &&
    row.limitPrice = (if t.orderType = .limit then t.limitPrice else none) &&
    row.orderType = t.orderType

def legRow (t : Ticket) (leg : ComboLeg) (row : Row) : R Bool :=
  if row.contract = leg.contract ∧ row.side = leg.side then do
    let q ← Ops.mulI A t.quantity leg.ratio
    pure (row.quantity.eqNum q && row.orderType = t.orderType && row.limitPrice = t.limitPrice)
  else pure false

/-- A row for every leg, none twice; `none` at the first leg without one. -/
def comboRows (t : Ticket) (working : List Row) (claimed : List Nat) :
    List ComboLeg → List Nat → R (Option (List Nat))
  | [], rows => pure (some rows)
  | leg :: rest, rows => do
    match ← findRow (legRow A t leg) (claimed ++ rows) working.zipIdx with
    | some i => comboRows t working claimed rest (rows ++ [i])
    | none => pure none

abbrev Verdict := AckStatus × String

def rowVerdict (row : Row) : Verdict :=
  if row.live then
    (.accepted, s!"on the order book ({row.state.value}, filled {row.filled.canon})")
  else if row.state = .filled then (.accepted, "filled (order book)")
  else if row.state = .pendingUnknown then (.pending, "order book row in an unknown state")
  else (.rejected, s!"venue order book shows {row.state.value}")

def legsVerdict (states : List OrderState) : Verdict :=
  if .pendingUnknown ∈ states then (.pending, "a leg's order book row is in an unknown state")
  else
    match states.find? fun st => !(st = .filled) && !live st with
    | some st => (.rejected, s!"venue order book shows {st.value}")
    | none =>
      let names := ", ".intercalate (states.map OrderState.value)
      (.accepted, s!"on the order book, both legs ({names})")

def notVisible : Verdict := (.pending, "not visible on the order book or in positions yet")

/-- Whether every contract moved by what the ticket trades. -/
def allMoved (before held : Book) : List (Contract × Money) → R Bool
  | [] => pure true
  | (c, q) :: rest => do
    let delta ← Ops.sub A (held.have c) (before.have c)
    if delta.eqNum q then allMoved before held rest else pure false

/-- A vertical is proven leg by leg: a row for every leg, or every leg's position moved. -/
def confirmCombo (t : Ticket) (legs : List ComboLeg) (before : Book)
    (positions : List (Contract × Money)) (working : List Row) (claimed : List Nat) :
    R (Verdict × List Nat) := do
  match ← comboRows A t working claimed legs [] with
  | some rows =>
    pure (legsVerdict (rows.filterMap fun i => (working[i]?).map (·.state)), claimed ++ rows)
  | none =>
    let held ← positionBook A positions
    if ← allMoved A before held (← ticketContracts A t.instrument t.side t.quantity).entries then
      pure ((.accepted, "filled (every leg's position moved)"), claimed)
    else pure (notVisible, claimed)

/-- What the read-back proves of a ticket. `claimed` holds the places of the rows earlier tickets of
the batch already matched. -/
def confirmTicket (t : Ticket) (before : Book) (positions : List (Contract × Money))
    (working : List Row) (claimed : List Nat) : R (Verdict × List Nat) :=
  match t.instrument with
  | .combo legs => confirmCombo A t legs before positions working claimed
  | .single c => do
    match ← findRow (fun row => pure (ticketRow t row)) claimed working.zipIdx with
    | some i =>
      pure (((working[i]?).map rowVerdict).getD notVisible, claimed ++ [i])
    | none =>
      let moved ← Ops.sub A ((← positionBook A positions).have c) (before.have c)
      if moved.eqNum (← signedBy A t.side t.quantity) then
        pure ((.accepted, s!"filled (position moved {moved.canon})"), claimed)
      else pure (notVisible, claimed)

end TradeEngine.Tos
