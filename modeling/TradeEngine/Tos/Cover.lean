import TradeEngine.Tos.Reconcile
import TradeEngine.Lib.Matching

/-!
# The cover rule

An order waits when filling it in full would leave more short calls uncovered on its underlying than there are
now. Cover is what the mirror book proves the venue holds: a short call is covered by a lot of shares or by a
long call, assigned by a maximum matching.
-/

namespace TradeEngine.Tos

open Lib

variable (A : Arith)

/-! ## Long calls against short calls -/

/-- Whether one long call can cover one short call. -/
def covers (long short : OptionContract) : Bool :=
  long.underlying == short.underlying && long.right == .call && short.right == .call &&
    long.multiplier == short.multiplier && decide (short.expiry.numDaysFromCe ≤ long.expiry.numDaysFromCe) &&
    long.strike.le short.strike

/-- The short call units no long call unit covers, as indexes into `shorts`. -/
def bare (longs shorts : List OptionContract) : List Nat :=
  let owner := assign (edgeOf covers longs shorts) longs.length shorts.length
  let covered := (List.range longs.length).filterMap owner
  (List.range shorts.length).filter fun i => !covered.contains i

/-- The most call units one position may expand to. -/
def maxUnits : Int := 1000000

abbrev Calls := List (String × List OptionContract)

/-- `units` copies of a call under its underlying. -/
def extend (side : Calls) (c : OptionContract) (units : Int) : Calls :=
  let more := List.replicate units.toNat c
  if side.any (·.1 == c.underlying) then
    side.map fun e => if e.1 = c.underlying then (e.1, e.2 ++ more) else e
  else side ++ [(c.underlying, more)]

def sortCall (sides : Calls × Calls) (e : Contract × Money) : R (Calls × Calls) :=
  match e.1 with
  | .option c =>
    if c.right ≠ .call || e.2.eqNum .zero then pure sides
    else do
      let units ← (← Ops.abs A e.2).truncI128.mapError derr
      if units > maxUnits then wireErr "a position too large to expand into call units"
      else if e.2.lt .zero then pure (extend sides.1 c units, sides.2)
      else pure (sides.1, extend sides.2 c units)
  | _ => pure sides

def unitsOf (side : Calls) (underlying : String) : List OptionContract :=
  ((side.find? (·.1 == underlying)).map (·.2)).getD []

/-- The calls whose lot the shares do not reach, each lot they reach taken from them. -/
def handOut (left : List OptionContract) (shares : Money) : R Int :=
  match left with
  | [] => pure 0
  | call :: left => do
    let lot ← (Money.fromI128 call.multiplier).mapError derr
    if shares.ge lot then handOut left (← Ops.sub A shares lot)
    else do pure ((← handOut left shares) + 1)

/-- The calls no long call covers, the larger multiplier first. -/
def leftOver (longs calls : List OptionContract) : List OptionContract :=
  ((bare longs calls).filterMap (calls[·]?)).insertionSort fun a b => b.multiplier ≤ a.multiplier

/-- Per underlying, the short call contracts nothing held covers: the counts above zero. -/
def uncovered (held : Book) : R (List (String × Money)) := do
  let (shorts, longs) ← held.entries.foldlM (sortCall A) ([], [])
  shorts.foldlM (fun found e => do
    let count ← handOut A (leftOver (unitsOf longs e.1) e.2) (held.have (.equity e.1))
    if count = 0 then pure found
    else do pure (found ++ [(e.1, ← (Money.fromI128 count).mapError derr)])) []

/-! ## What is held -/

/-- The book summed over accounts, less every open ticket's unfilled sell remainder: the nonzero entries. -/
def holdings (mirror : MirrorState) : R Book := do
  let held ← mirror.book.entries.foldlM (fun h e => Book.add A h e.1.2 e.2) .empty
  let held ← mirror.openTickets.foldlM (fun h t => do
    (← TradeEngine.ticketContracts A t.queued (← t.remaining A)).entries.foldlM (fun h e =>
      if e.2.lt .zero then h.add A e.1 e.2 else pure h) h) held
  pure (held.entries.foldl (fun m e => if e.2.eqNum .zero then m else m.insert e.1.hk e.1 e.2) .empty)

/-! ## The rule -/

/-- What a single-leg sell of shares or of a call gives up. -/
abbrev Sold := Option (Contract × Money)

def Book.sell (b : Book) (c : Contract) (q : Money) : R Book := do
  pure (b.insert c.hk c (← Ops.sub A (b.have c) q))

def lookup (found : List (String × Money)) (underlying : String) : Money :=
  ((found.find? (·.1 == underlying)).map (·.2)).getD .zero

def longCalls (held : Book) (underlying : String) : R Money :=
  held.entries.foldlM (fun total e =>
    match e.1 with
    | .option c =>
      if c.right = .call && c.underlying == underlying && e.2.gt .zero then Ops.add A total e.2 else pure total
    | _ => pure total) .zero

def underlyingOf : Contract → R String
  | .equity symbol => pure symbol
  | .option o => pure o.underlying
  | .future _ => wireErr "a future is never sold here"

/-- Nothing when the order may go now, else why it must wait. The sells of the same batch already let through
count as resting. -/
def coverReason (mirror : MirrorState) (sold : Sold) (accepted : List Sold) : R (Option String) :=
  match sold with
  | none => pure none
  | some (c, quantity) => do
    let held ← accepted.reduceOption.foldlM (fun h gone => Book.sell A h gone.1 gone.2) (← holdings A mirror)
    let underlying ← underlyingOf c
    let before := lookup (← uncovered A held) underlying
    let after := lookup (← uncovered A (← held.sell A c quantity)) underlying
    if !after.gt before then pure none
    else do
      let sharesHeld := held.have (.equity underlying)
      let shares := if Money.zero.gt sharesHeld then .zero else sharesHeld
      let longs ← longCalls A held underlying
      let symbol ← c.symbol
      pure (some (s!"selling {quantity.canon} {symbol} would leave {after.canon} short {underlying} call(s)" ++
        s!" uncovered ({before.canon} now); the mirror book proves {shares.canon} share(s) and {longs.canon}" ++
        " long call(s) held (proven venue fills only; shares from an assignment are not booked)"))

def soldOfOrder (o : Order) : Sold :=
  if o.side ≠ .sell then none
  else match o.instrument with
    | .single (.equity s) => some (.equity s, o.quantity)
    | .single (.option c) => if c.right = .call then some (.option c, o.quantity) else none
    | _ => none

structure Classified where
  accepted : List Sold
  todo : List Order
  waiting : List (String × String)
  refused : List (String × String)

def Classified.start : Classified := ⟨[], [], [], []⟩

def classifyOrder (mirror : MirrorState) (mayWait : Bool) (st : Classified) (o : Order) : R Classified := do
  let sold := soldOfOrder o
  match ← coverReason A mirror sold st.accepted with
  | none => pure { st with accepted := st.accepted ++ [sold], todo := st.todo ++ [o] }
  | some why =>
    if mayWait then pure { st with waiting := st.waiting ++ [(o.orderId, why)] }
    else pure { st with refused := st.refused ++ [(o.orderId, why)] }

def classifyCover (mirror : MirrorState) (candidates : List Order) (mayWait : Bool) : R Classified :=
  candidates.foldlM (classifyOrder A mirror mayWait) .start

end TradeEngine.Tos
