import TradeEngine.Ledger.Model

/-!
# The venue mirror's folded state

Tickets queued for a venue, what the venue acknowledged and filled of them, and the strategy book
that follows. Every step refuses a contradiction.
-/

namespace TradeEngine

open Lib

/-! ## Decimal operations as the ledger raises them -/

namespace Ops

variable (A : Arith)

def add (a b : Money) : R Money := (A.add a b).mapError derr
def sub (a b : Money) : R Money := (A.sub a b).mapError derr
def mul (a b : Money) : R Money := (A.mul a b).mapError derr
def div (a b : Money) : R Money := (A.div a b).mapError derr
def neg (a : Money) : R Money := (A.neg a).mapError derr
def abs (a : Money) : R Money := (A.abs a).mapError derr
def mulI (a : Money) (n : Int) : R Money := (A.mulI a n).mapError derr
def divI (a : Money) (n : Int) : R Money := (A.divI a n).mapError derr

end Ops

def mfold {α : Type} (msg : String) : R α := err .mirrorFold msg

variable (A : Arith)

/-! ## Shares of an amount -/

/-- One more for each of the first shares still under its weight, while any remain. -/
def bumpShares : List (Money × Money) → Int → R (List Money)
  | [], _ => .ok []
  | (w, sh) :: rest, r =>
    if r = 0 then .ok (sh :: rest.map (·.2))
    else if sh.lt w then do
      let sh' ← (A.addI sh 1).mapError derr
      pure (sh' :: (← bumpShares rest (r - 1)))
    else do pure (sh :: (← bumpShares rest r))

/-- Integer shares of `amount` by weight: floors, then one each to the first shares still under
their weight. -/
def proRata (weights : List Money) (whole amount : Money) : R (List Money) := do
  let shares ← weights.mapM fun w => do
    let x ← Ops.div A (← Ops.mul A w amount) whole
    (x.toIntegral .floor).mapError derr
  let total ← shares.foldlM (Ops.add A) Money.zero
  let remainder ← (← Ops.sub A amount total).truncI128.mapError derr
  bumpShares A (weights.zip shares) remainder

/-! ## Contracts of a ticket -/

def Side.sign : Side → Money
  | .buy => .one
  | .sell => .minusOne

/-- Signed contracts `units` of a ticket put on the venue. A repeated contract keeps its first
position and its last value. -/
def ticketContracts (q : MirrorQueued) (units : Money) : R (OMap Contract Money) :=
  match q.instrument with
  | .combo legs =>
    legs.foldlM (fun out leg => do
      let v ← Ops.mulI A (← Ops.mul A leg.side.sign units) leg.ratio
      pure (out.insert leg.contract.hk leg.contract v)) .empty
  | .single c => do
    pure (OMap.empty.insert c.hk c (← Ops.mul A q.side.sign units))

/-! ## State -/

structure MirrorTicketState where
  queued : MirrorQueued
  ack : Option MirrorAck
  venueOrderId : Option String
  bookStatus : Option OrderState
  filled : Money
  avgPrice : Option Money
  closed : Bool
  allocated : OMap String Money

namespace MirrorTicketState

/-- Closed, or filled through its quantity. -/
def terminal (t : MirrorTicketState) : Bool := t.closed || t.filled.ge t.queued.quantity

/-- Units still expected to rest or fill at the venue. -/
def remaining (t : MirrorTicketState) : R Money :=
  if t.terminal then .ok .zero else Ops.sub A t.queued.quantity t.filled

def new (q : MirrorQueued) : MirrorTicketState :=
  { queued := q, ack := none, venueOrderId := none, bookStatus := none, filled := .zero,
    avgPrice := none, closed := false, allocated := .empty }

end MirrorTicketState

structure MirrorState where
  venue : Option String
  tickets : OMap String MirrorTicketState
  book : OMap (String × Contract) Money
  queuedOrders : OMap String String
  refusedOrders : OMap String String
  orderIds : OMap String String

namespace MirrorState

def new : MirrorState :=
  { venue := none, tickets := .empty, book := .empty, queuedOrders := .empty,
    refusedOrders := .empty, orderIds := .empty }

/-- Already queued or refused at this venue, never mirrored again. -/
def handled (st : MirrorState) (strategyOrderId : String) : Bool :=
  st.queuedOrders.contains strategyOrderId || st.refusedOrders.contains strategyOrderId

/-- The tickets not terminal, in ticket-key order. -/
def openTickets (st : MirrorState) : List MirrorTicketState :=
  ((st.tickets.entries.insertionSort (fun a b => ¬ b.1 < a.1)).map (·.2)).filter (!·.terminal)

end MirrorState

/-- The key of a book entry. -/
def bookHk (account : String) (i : Instrument) : String :=
  toString account.utf8ByteSize ++ ":" ++ account ++ i.hk

/-! ## Steps -/

def checkVenue (st : MirrorState) (venue : String) : R Unit :=
  match st.venue with
  | some v =>
    refuseIf (v ≠ venue) .mirrorFold
      s!"mirror event for venue '{venue}' folded into venue '{v}' (I8)"
  | none => .ok ()

def mirrorTicket (st : MirrorState) (key what : String) : R MirrorTicketState :=
  match st.tickets.get key with
  | some t => .ok t
  | none => mfold s!"{what} names ticket '{key}', which was never queued (I5)"

/-- Every allocation is checked against the state before the event. -/
def checkAllocation (st : MirrorState) (a : MirrorAllocation) : R Unit :=
  match st.queuedOrders.get a.strategyOrderId with
  | some t =>
    mfold (s!"strategy order '{a.strategyOrderId}' is already on ticket '{t}';" ++
      " refusing to mirror it twice (I3)")
  | none =>
    refuseIf (st.refusedOrders.contains a.strategyOrderId) .mirrorFold
      (s!"strategy order '{a.strategyOrderId}' was refused at this venue;" ++
        " it is not queued later (I3)")

def onQueued (st : MirrorState) (q : MirrorQueued) : R MirrorState := do
  checkVenue st q.venue
  match st.tickets.get q.ticketKey with
  | some existing =>
    refuseIf (!existing.queued.same q) .mirrorFold
      s!"ticket '{q.ticketKey}' was already queued with other contents (I3)"
    pure st
  | none =>
    q.allocations.forM (checkAllocation st)
    pure { st with
      queuedOrders :=
        q.allocations.foldl (fun m a => m.put a.strategyOrderId q.ticketKey) st.queuedOrders
      venue := some q.venue
      tickets := st.tickets.put q.ticketKey (.new q) }

def onRefused (st : MirrorState) (r : MirrorRefused) : R MirrorState := do
  checkVenue st r.venue
  match st.queuedOrders.get r.strategyOrderId with
  | some t =>
    mfold s!"strategy order '{r.strategyOrderId}' is on ticket '{t}'; it cannot also be refused (I11)"
  | none =>
    if st.refusedOrders.contains r.strategyOrderId then pure st
    else
      pure { st with
        refusedOrders := st.refusedOrders.put r.strategyOrderId r.reason
        venue := some r.venue }

/-- The venue order id an acknowledgement proves, refused where it contradicts an earlier one. -/
def ackOrderId (st : MirrorState) (t : MirrorTicketState) (a : MirrorAck) : R Unit :=
  match a.venueOrderId with
  | none => .ok ()
  | some v => do
    let cur := t.venueOrderId.getD v
    refuseIf (cur ≠ v) .mirrorFold
      s!"ticket '{a.ticketKey}' is venue order {cur}; an ack names {v} (I5)"
    let owner := (st.orderIds.get v).getD a.ticketKey
    refuseIf (owner ≠ a.ticketKey) .mirrorFold
      s!"venue order {v} is already ticket '{owner}'; it cannot also be '{a.ticketKey}' (I5)"

def onAck (st : MirrorState) (a : MirrorAck) : R MirrorState := do
  checkVenue st a.venue
  let t ← mirrorTicket st a.ticketKey "MirrorAck"
  ackOrderId st t a
  let dead := a.status == .rejected || a.bookStatus == some .cancelled ||
    a.bookStatus == some .expired || a.bookStatus == some .rejected
  pure { st with
    orderIds := match a.venueOrderId with
      | some v => st.orderIds.put v a.ticketKey
      | none => st.orderIds
    tickets := st.tickets.put a.ticketKey { t with
      ack := some a
      venueOrderId := a.venueOrderId.or t.venueOrderId
      bookStatus := a.bookStatus.or t.bookStatus
      closed := t.closed || dead } }

/-- One contract's signed quantity into a strategy account's book; an entry that nets to nothing
is removed. -/
def bookAdd (account : String) (book : OMap (String × Contract) Money) (e : Contract × Money) :
    R (OMap (String × Contract) Money) := do
  let hk := bookHk account (.single e.1)
  let total ← Ops.add A ((book.get hk).getD .zero) e.2
  pure (if total.eqNum .zero then book.remove hk else book.insert hk (account, e.1) total)

/-- One allocation's piece of an increment: its own total, then the book. -/
def allocateFill (q : MirrorQueued) (acc : OMap String Money × OMap (String × Contract) Money)
    (piece : MirrorAllocation × Money) : R (OMap String Money × OMap (String × Contract) Money) := do
  let a := piece.1
  let total ← Ops.add A ((acc.1.get a.strategyOrderId).getD .zero) piece.2
  let contracts ← ticketContracts A q piece.2
  let book ← contracts.entries.foldlM (bookAdd A a.strategyAccount) acc.2
  pure (acc.1.put a.strategyOrderId total, book)

def onMirrorFill (st : MirrorState) (f : MirrorFill) : R MirrorState := do
  checkVenue st f.venue
  let t ← mirrorTicket st f.ticketKey "MirrorFill"
  let proven := t.venueOrderId.getD "None"
  refuseIf (t.venueOrderId ≠ some f.venueOrderId) .mirrorFold
    (s!"MirrorFill for '{f.ticketKey}' names venue order {f.venueOrderId};" ++
      s!" the ticket's proven Order ID is {proven} (I5)")
  refuseIf (f.filled.gt t.queued.quantity) .mirrorFold
    (s!"ticket '{f.ticketKey}' filled {f.filled.canon} of {t.queued.quantity.canon};" ++
      " refusing the over-fill (I5)")
  refuseIf (f.filled.lt t.filled) .mirrorFold
    (s!"ticket '{f.ticketKey}' was filled {t.filled.canon}; a cumulative" ++
      s!" {f.filled.canon} cannot go down (I5)")
  if f.filled.eqNum t.filled then
    let was := t.avgPrice.elim "None" Money.canon
    refuseIf (some f.avgPrice ≠ t.avgPrice) .mirrorFold
      (s!"ticket '{f.ticketKey}' filled {f.filled.canon} at {was}; the venue now says" ++
        s!" {f.avgPrice.canon} for the same fill (I5)")
    pure st
  else
    -- the increment is split pro-rata over what each strategy order still lacks
    let lacking ← t.queued.allocations.mapM fun a =>
      Ops.sub A a.quantity ((t.allocated.get a.strategyOrderId).getD .zero)
    let pieces ← proRata A lacking (← Ops.sub A t.queued.quantity t.filled)
      (← Ops.sub A f.filled t.filled)
    let ab ← (t.queued.allocations.zip pieces).foldlM (allocateFill A t.queued)
      (t.allocated, st.book)
    pure { st with
      tickets := st.tickets.put f.ticketKey { t with
        filled := f.filled
        avgPrice := some f.avgPrice
        allocated := ab.1 }
      book := ab.2 }

/-! ## What the strategies and the venue expect -/

/-- One contract's signed quantity onto what an account is exposed to. -/
def expose (account : String) (m : OMap (String × Contract) Money) (e : Contract × Money) :
    R (OMap (String × Contract) Money) := do
  let hk := bookHk account (.single e.1)
  pure (m.insert hk (account, e.1) (← Ops.add A ((m.get hk).getD .zero) e.2))

/-- The part of a strategy order its open ticket has not filled. -/
def exposeAllocation (t : MirrorTicketState) (m : OMap (String × Contract) Money)
    (a : MirrorAllocation) : R (OMap (String × Contract) Money) := do
  let lacking ← Ops.sub A a.quantity ((t.allocated.get a.strategyOrderId).getD .zero)
  (← ticketContracts A t.queued lacking).entries.foldlM (expose A a.strategyAccount) m

/-- One contract's signed quantity onto what the venue is expected to hold. -/
def expect (m : OMap Contract Money) (e : Contract × Money) : R (OMap Contract Money) := do
  pure (m.insert e.1.hk e.1 (← Ops.add A ((m.get e.1.hk).getD .zero) e.2))

namespace MirrorState

/-- Per strategy account and contract the book plus each open ticket's unfilled part, the nonzero
entries only. -/
def exposure (st : MirrorState) : R (OMap (String × Contract) Money) := do
  let copy := st.book.entries.foldl (fun m e => m.insert (bookHk e.1.1 (.single e.1.2)) e.1 e.2) .empty
  let all ← st.openTickets.foldlM (fun m t => t.queued.allocations.foldlM (exposeAllocation A t) m) copy
  pure (all.entries.foldl (fun m e =>
    if e.2.eqNum .zero then m else m.insert (bookHk e.1.1 (.single e.1.2)) e.1 e.2) .empty)

/-- Per contract the book plus every open ticket's live remainder. -/
def expected (st : MirrorState) : R (OMap Contract Money) := do
  let held ← st.book.entries.foldlM (fun m e => expect A m (e.1.2, e.2)) .empty
  st.openTickets.foldlM (fun m t => do
    (← ticketContracts A t.queued (← t.remaining A)).entries.foldlM (expect A) m) held

end MirrorState

end TradeEngine
