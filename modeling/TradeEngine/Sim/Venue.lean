import TradeEngine.Ledger.Mirror

/-!
# The simulated venue: instants, calendars and prices

What the one-minute-bar venue reads besides its book: timestamps compared by instant, the published
trading calendars, and the price a working order takes from a bar.
-/

namespace TradeEngine.Sim

open Lib

/-- A timestamp: the instant, and the text it came in as. -/
structure Ts where
  dt : DateTime
  iso : String
deriving DecidableEq

namespace Ts

def key (t : Ts) : Int × Nat := t.dt.instant

def lt (t u : Ts) : Bool := t.key.1 < u.key.1 || (t.key.1 == u.key.1 && t.key.2 < u.key.2)

def gt (t u : Ts) : Bool := u.lt t

def le (t u : Ts) : Bool := !u.lt t

def ge (t u : Ts) : Bool := !t.lt u

def eq (t u : Ts) : Bool := t.key == u.key

theorem lt_iff {t u : Ts} :
    t.lt u = true ↔ t.key.1 < u.key.1 ∨ t.key.1 = u.key.1 ∧ t.key.2 < u.key.2 := by
  simp [lt]

theorem le_iff {t u : Ts} :
    t.le u = true ↔ t.key.1 < u.key.1 ∨ t.key.1 = u.key.1 ∧ t.key.2 ≤ u.key.2 := by
  unfold le
  rw [Bool.not_eq_true', ← Bool.not_eq_true, lt_iff]
  omega

theorem le_trans {t u x : Ts} (h : t.le u = true) (h' : u.le x = true) : t.le x = true := by
  rw [le_iff] at *
  omega

theorem le_of_lt {t u : Ts} (h : t.lt u = true) : t.le u = true := by
  rw [lt_iff] at h
  rw [le_iff]
  omega

theorem lt_of_le_of_not_ge {t u x : Ts} (h : t.le u = true) (h' : u.ge x = false) : t.lt x = true := by
  have hlt : u.lt x = true := by simpa [ge] using h'
  rw [le_iff] at h
  rw [lt_iff] at *
  omega

/-- `+ timedelta(seconds=n)` on the wall clock, keeping the offset. -/
def addSeconds (t : Ts) (n : Int) : R Ts :=
  let total : Int := t.dt.sod + n
  let date := t.dt.date.shift (total / 86400)
  if 1 ≤ date.year ∧ date.year ≤ 9999 then
    let dt : DateTime := ⟨date, (total % 86400).toNat, t.dt.us, t.dt.off⟩
    .ok ⟨dt, dt.iso⟩
  else err .overflow "date value out of range"

/-- `.replace(second=0, microsecond=0)`. -/
def floorMinute (t : Ts) : Ts :=
  let dt : DateTime := ⟨t.dt.date, t.dt.sod - t.dt.sod % 60, 0, t.dt.off⟩
  ⟨dt, dt.iso⟩

/-- `.second or .microsecond`. -/
def offMinute (t : Ts) : Bool := t.dt.sod % 60 != 0 || t.dt.us != 0

end Ts

/-- The first unless the second is later. -/
def tsMax (a b : Ts) : Ts := if b.gt a then b else a

/-! ## Calendars -/

/-- The sessions of one futures root. -/
structure GlobexCalendar where
  sessionOpen : NaiveDate → R Ts
  sessionClose : NaiveDate → R Ts
  nextSession : NaiveDate → R NaiveDate
  sessionOrNext : Ts → R NaiveDate
  sessionAt : Ts → R (Option NaiveDate)
  isOpenAt : Ts → R Bool

/-- The published session tables, of the equity market and of each futures root. -/
structure Calendars where
  nyDate : Ts → R NaiveDate
  isSession : NaiveDate → R Bool
  sessionOpen : NaiveDate → R Ts
  sessionClose : NaiveDate → R Ts
  nextSession : NaiveDate → R NaiveDate
  rollNext : NaiveDate → R NaiveDate
  forRoot : String → R GlobexCalendar

/-- The calendar follows the instrument, not the book. -/
def Calendars.gcal (cal : Calendars) : Instrument → R GlobexCalendar
  | .single (.future f) => cal.forRoot f.root
  | _ => err .value "SimBroker supports futures only"

/-- The session a DAY order submitted at this instant works in. -/
def Calendars.daySession (cal : Calendars) (submittedAt : Ts) : R NaiveDate := do
  let d ← cal.nyDate submittedAt
  if ← cal.isSession d then
    if submittedAt.lt (← cal.sessionClose d) then pure d else cal.nextSession d
  else cal.rollNext d

inductive VenueCalendar where
  | xnys
  | globex
deriving DecidableEq, Repr

/-! ## Orders, fills and bars -/

structure Alloc where
  soid : String
  account : String
  qty : Money
deriving DecidableEq

/-- A venue order's fields; its constructor refuses a quantity that is not positive. -/
structure VOrder where
  id : String
  instr : Instrument
  otype : OrderType
  side : Side
  quantity : Money
  submittedAt : Ts
  tif : Tif
  limit : Option Money
  stop : Option Money
  trail : Option Money
  allocs : List Alloc
  parent : Option String
  oco : Option String
  quantity_pos : 0 < quantity.mantissa

instance : DecidableEq VOrder := fun o p =>
  decidable_of_iff (o.id = p.id ∧ o.instr = p.instr ∧ o.otype = p.otype ∧ o.side = p.side ∧
    o.quantity = p.quantity ∧ o.submittedAt = p.submittedAt ∧ o.tif = p.tif ∧ o.limit = p.limit ∧
    o.stop = p.stop ∧ o.trail = p.trail ∧ o.allocs = p.allocs ∧ o.parent = p.parent ∧ o.oco = p.oco)
    (by cases o; cases p; simp)

/-- Dataclass `==`: submission times are one instant. -/
def VOrder.same (o p : VOrder) : Bool :=
  o.id == p.id && o.instr.same p.instr && o.otype == p.otype && o.side == p.side &&
    o.quantity.eqNum p.quantity && o.submittedAt.eq p.submittedAt && o.tif == p.tif &&
    o.limit == p.limit && o.stop == p.stop && o.trail == p.trail && o.allocs == p.allocs &&
    o.parent == p.parent && o.oco == p.oco

structure VFill where
  fillId : String
  orderId : String
  instr : Instrument
  quantity : Money
  price : Money
  filledAt : Ts
  side : Side
  quantity_pos : 0 < quantity.mantissa
  price_pos : 0 < price.mantissa

instance : DecidableEq VFill := fun f g =>
  decidable_of_iff (f.fillId = g.fillId ∧ f.orderId = g.orderId ∧ f.instr = g.instr ∧
    f.quantity = g.quantity ∧ f.price = g.price ∧ f.filledAt = g.filledAt ∧ f.side = g.side)
    (by cases f; cases g; simp)

/-- `VenueFill.__post_init__`. -/
def makeVFill (fillId : String) (order : VOrder) (quantity price : Money) (filledAt : Ts) : R VFill :=
  if hq : quantity.mantissa ≤ 0 then
    err .value s!"VenueFill quantity must be strictly positive, got {quantity.canon}"
  else if hp : price.mantissa ≤ 0 then
    err .value s!"VenueFill price must be strictly positive, got {price.canon} (I5)"
  else .ok ⟨fillId, order.id, order.instr, quantity, price, filledAt, order.side,
    Money.mantissa_pos hq, Money.mantissa_pos hp⟩

structure Bar where
  instr : Instrument
  ts : Ts
  opening : Money
  high : Money
  low : Money
  close : Money
  volume : Money
  asOf : Ts
deriving DecidableEq

def Bar.same (a b : Bar) : Bool :=
  a.instr.same b.instr && a.ts.eq b.ts && a.opening.eqNum b.opening && a.high.eqNum b.high &&
    a.low.eqNum b.low && a.close.eqNum b.close && a.volume.eqNum b.volume && a.asOf.eq b.asOf

structure Pos where
  instr : Instrument
  qty : Money
  avg : Money
  asOf : Ts
deriving DecidableEq

structure Working where
  order : VOrder
  state : OrderState
  filled : Money
  updatedAt : Ts
  triggered : Bool
deriving DecidableEq

def working : OrderState → Bool
  | .accepted => true
  | .partiallyFilled => true
  | _ => false

/-! ## Prices -/

def d (x : DecResult Money) : R Money := x.mapError derr

/-- `a` unless `b < a`. -/
def dmin (a b : Money) : Money := if b.lt a then b else a

/-- `a` unless `b > a`. -/
def dmax (a b : Money) : Money := if b.gt a then b else a

/-- `quantize` to an exponent at or under zero: a result over 28 digits is refused. -/
def quantize (a : Money) (exp : Int) : DecResult Money :=
  if a.coefficient = 0 then .ok .zero
  else
    let coef := if a.exponent ≥ exp then a.coefficient * 10 ^ (a.exponent - exp).toNat
      else Money.shiftRoundU128 a.coefficient (exp - a.exponent).toNat a.isNegative .halfEven
    if Money.digits coef > prec then .error .invalidOperation
    else Money.buildBig a.isNegative coef exp

def half : Money := ⟨5, 1, by decide, by decide, Or.inr (by decide)⟩

def one : Money := .one

def tenThousand : Money := .ofNat 10000

/-- The nearest multiple of a tick, ties towards the higher. -/
def roundToTick (price tick : Money) : R Money := do
  refuseIf (tick.mantissa ≤ 0) .value "tick size must be positive and finite"
  let units ← d (price.div tick)
  let shifted ← d (units.add half)
  let rounded ← d (shifted.toIntegral .floor)
  let snapped ← d (rounded.mul tick)
  d (quantize snapped tick.exponent)

/-- A price moved `n` whole ticks against the order; no ticks leave it untouched, off the grid too. -/
def slipTicks (price : Money) (side : Side) (n : Nat) (tick : Money) : R Money := do
  if n = 0 then pure price
  else
    let delta ← d (do tick.mul (← Money.fromI128 n))
    let raw ← d (match side with
      | .buy => price.add delta
      | .sell => price.sub delta)
    roundToTick raw tick

/-- A price moved against the order by a number of basis points. -/
def slipped (bps base : Money) (side : Side) : R Money := do
  let frac ← d (bps.div tenThousand)
  let factor ← d (match side with
    | .buy => one.add frac
    | .sell => one.sub frac)
  d (base.mul factor)

/-- A futures limit does not slip; an equity limit slips no further than its limit price. -/
def slippedPrice (bps : Money) (ticks : Nat) (base : Money) (order : VOrder) : R Money :=
  let limits := order.otype == .limit || order.otype == .stopLimit
  match order.instr with
  | .single (.future f) => if limits then pure base else slipTicks base order.side ticks f.tickSize
  | _ => do
    let p ← slipped bps base order.side
    match limits, order.limit with
    | true, some limit => pure (if order.side = .buy then dmin p limit else dmax p limit)
    | _, _ => pure p

/-- The base price of a limit order, if the bar reaches it. -/
def limitBase (side : Side) (limit : Money) (bar : Bar) : Option Money :=
  match side with
  | .buy => if bar.low.gt limit then none else some (dmin bar.opening limit)
  | .sell => if bar.high.lt limit then none else some (dmax bar.opening limit)

def stopBase (side : Side) (stop : Money) (bar : Bar) : Option Money :=
  match side with
  | .buy => if bar.high.lt stop then none else some (dmax bar.opening stop)
  | .sell => if bar.low.gt stop then none else some (dmin bar.opening stop)

/-- Whether the bar reaches a stop price, and whether it opened on the order's own side of it. -/
def stopReached (side : Side) (stop : Money) (bar : Bar) : Bool × Bool :=
  match side with
  | .buy => (!bar.high.lt stop, bar.opening.lt stop)
  | .sell => (!bar.low.gt stop, bar.opening.gt stop)

/-- A stop-limit waits for its stop, then for its limit. A bar that triggers it after its open can
fill it at the stop only. -/
def stopLimitBase (w : Working) (bar : Bar) : R (Bool × Option Money) := do
  match w.order.stop, w.order.limit with
  | some stop, some limit =>
    let (reached, inside) := stopReached w.order.side stop bar
    if !w.triggered && !reached then pure (false, none)
    else if !w.triggered && inside then
      let beyond := match w.order.side with
        | .buy => stop.gt limit
        | .sell => stop.lt limit
      pure (true, if beyond then none else some stop)
    else pure (true, limitBase w.order.side limit bar)
  | _, _ => err .sim "Accepted stop-limit order has no stop or limit price"

end TradeEngine.Sim
