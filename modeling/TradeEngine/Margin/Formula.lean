import TradeEngine.Margin.Strategies

/-!
# Strategy margin

LEAN's formulas for one matched strategy at one set of prices, over the decimal library's checked
operations.
-/

namespace TradeEngine.Margin

/-- The decimal library: checked arithmetic refuses on overflow, values are compared as numbers. -/
class Decimal (D : Type) extends LinearOrder D, Zero D where
  ofInt : Int → D
  /-- `units / 10 ^ scale`. -/
  ofParts : Nat → Nat → D
  add : D → D → Option D
  sub : D → D → Option D
  mul : D → D → Option D
  div : D → D → Option D
  neg : D → D
  abs : D → D
  /-- Toward zero, where it fits. -/
  toI64 : D → Option Int64
  text : D → String

section
variable {D : Type} [Decimal D]

def overflow : MarginError := .value "decimal arithmetic overflow (D6)"

def orOverflow (x : Option D) : Result D := x.elim (.error overflow) .ok

def add (a b : D) : Result D := orOverflow (Decimal.add a b)

def sub (a b : D) : Result D := orOverflow (Decimal.sub a b)

def mul (a b : D) : Result D := orOverflow (Decimal.mul a b)

/-- `a * b * c`, left to right. -/
def mul3 (a b c : D) : Result D := do mul (← mul a b) c

def decI (q : Int64) : D := Decimal.ofInt q.toInt

def nakedFloor : D := Decimal.ofParts 10 2

def equityOtmFraction : D := Decimal.ofParts 20 2

def indexOtmFraction : D := Decimal.ofParts 15 2

def coveredCallCallFraction : D := Decimal.ofParts 8 1

def collarCallFraction : D := Decimal.ofParts 25 2

/-- `otm`: how far out of the money. -/
def otm (c : Contract D) (price : D) : Result D := do
  let amount ← if c.right = .call then sub c.strike price else sub price c.strike
  pure (max amount 0)

def intrinsic (c : Contract D) (price : D) : Result D := do
  if price ≤ 0 then
    throw (.value s!"Underlying price must be positive, got {Decimal.text price} (I5)")
  let amount ← if c.right = .call then sub price c.strike else sub c.strike price
  pure (max amount 0)

/-- The premium plus the larger of 10% of the strike (put) or underlying (call), and 20% (15% for an
index) of the underlying less the amount out of the money. A long option needs nothing. -/
def nakedMargin (c : Contract D) (contracts : Int64) (underlying mark : D) : Result D := do
  if contracts.toInt ≥ 0 then
    return 0
  let base := if c.right = .put then c.strike else underlying
  let index ← match c.style with
    | .resolved _ index => pure index
    | .unresolved msg => throw (.unresolvable msg)
  let fraction : D := if index then indexOtmFraction else equityOtmFraction
  let band ← sub (← mul fraction underlying) (← otm c underlying)
  let perShare ← add mark (max (← mul nakedFloor base) band)
  let count ← checked (-contracts.toInt)
  mul3 perShare (decI c.multiplier) (decI count)

/-- The prices and fractions one pricing run reads. -/
structure Market (n : Nat) (D : Type) where
  ctx : Fin n → Contract D
  underlying : String
  price : D
  marks : Fin n → Option D
  entries : Option (Fin n → Option D)
  initialFraction : D
  maintenanceFraction : D

/-- One matched strategy's requirements. -/
structure StrategyMargin (n : Nat) (D : Type) where
  name : String
  underlying : String
  quantity : Int64
  legs : List (Fin n × Int64)
  shares : D
  initial : D
  maintenance : D
  cashSecured : Option D
  netOfCredit : Option D

variable {n : Nat}

namespace Market

def noMark (m : Market n D) (c : Fin n) : String := s!"No session-close mark for {(m.ctx c).occ} (I5)"

def value (m : Market n D) (c : Fin n) (contracts : Int64) : Result D :=
  match m.marks c with
  | none => refuse (m.noMark c)
  | some mark => mul3 mark (decI (m.ctx c).multiplier) (decI contracts)

def leg (m : Market n D) (s : Matched n) (right : Right) (short : Option Bool) : Result (Fin n × Int64) :=
  match s.legs.find? fun x => (m.ctx x.1).right = right && short.all (decide (x.2.toInt < 0) == ·) with
  | some x => .ok x
  | none =>
      let which := match short with
        | some true => "short "
        | some false => "long "
        | none => ""
      let name := match right with
        | .call => "call"
        | .put => "put"
      refuse s!"{s.name} has no {which}{name} leg"

/-- `max(long - short, 0)` for calls, `max(short - long, 0)` for puts, in dollars. -/
def width (m : Market n D) (s : Matched n) (right : Right) : Result D := do
  let sold := m.ctx (← m.leg s right (some true)).1
  let held := m.ctx (← m.leg s right (some false)).1
  let difference ← if right = .call then sub held.strike sold.strike else sub sold.strike held.strike
  mul3 (max difference 0) (decI sold.multiplier) (decI s.quantity)

def first (s : Matched n) : Result (Fin n × Int64) :=
  s.legs.head?.elim (refuse s!"{s.name} has no legs") .ok

def neg (q : Int64) : Result D := do pure (decI (← checked (-q.toInt)))

/-- Cash for the assignment of a short put. -/
def assignment (c : Contract D) (q : Int64) : Result D := do
  mul (← mul c.strike (decI c.multiplier)) (← neg q)

/-- `MAX[ITM + stock margin at min(price, strike), min(stock value, max(call value, stock margin))]`. -/
def coveredCall (m : Market n D) (s : Matched n) (shares stockValue stockInitial stockMaintenance : D) :
    Result (D × D × Option D) := do
  let (c, q) ← first s
  let itm ← mul (← mul (← intrinsic (m.ctx c) m.price) (decI (m.ctx c).multiplier)) (← neg q)
  let hypothetical ← mul3 m.maintenanceFraction (Decimal.abs shares) (min m.price (m.ctx c).strike)
  let value ← m.value c q
  let second := min stockValue (max value stockMaintenance)
  let maintenance := max (← add itm hypothetical) second
  let initial ← add (← mul coveredCallCallFraction (Decimal.abs value)) stockInitial
  pure (initial, maintenance, some 0)

/-- `min(10% of strike + out-of-the-money amount, stock maintenance)`. -/
def protective (m : Market n D) (s : Matched n) (stockInitial stockMaintenance : D) :
    Result (D × D × Option D) := do
  let (c, q) ← first s
  let perShare ← add (← mul nakedFloor (m.ctx c).strike) (← otm (m.ctx c) m.price)
  let option ← mul3 perShare (decI (m.ctx c).multiplier) (decI q)
  pure (stockInitial, min option stockMaintenance, if s.name = "Protective Put" then some 0 else none)

def coveredPut (m : Market n D) (s : Matched n) (stockInitial : D) : Result (D × D × Option D) := do
  let (c, q) ← first s
  let itm ← mul (← mul (← intrinsic (m.ctx c) m.price) (decI (m.ctx c).multiplier)) (← neg q)
  let margin ← add stockInitial itm
  pure (margin, margin, none)

/-- Maintenance `min(10% of put strike + put OTM, 25% of call strike)`; initial the stock's plus the
call's amount in the money. -/
def protectiveCollar (m : Market n D) (s : Matched n) (stockInitial : D) : Result (D × D × Option D) := do
  let (pc, putQuantity) ← m.leg s .put none
  let (cc, callQuantity) ← m.leg s .call none
  let (put, call) := (m.ctx pc, m.ctx cc)
  let perShare := min (← add (← mul nakedFloor put.strike) (← otm put m.price))
    (← mul collarCallFraction call.strike)
  let maintenance ← mul3 perShare (decI put.multiplier) (decI putQuantity)
  let itm ← mul (← mul (← intrinsic call m.price) (decI call.multiplier)) (← neg callQuantity)
  let initial ← add stockInitial itm
  pure (initial, maintenance, some 0)

/-- A naked option, or the short leg of a short calendar; `cash` says whether cash can secure it. -/
def nakedLeg (m : Market n D) (x : Fin n × Int64) (cash : Bool) : Result (D × D × Option D) := do
  let margin ← nakedMargin (m.ctx x.1) x.2 m.price ((m.marks x.1).getD 0)
  let secured ← if cash then some <$> assignment (m.ctx x.1) x.2 else pure none
  pure (margin, margin, secured)

/-- Initial before premium, maintenance, cash secured. -/
def formula (m : Market n D) (s : Matched n) (multiplier : Int64) : Result (D × D × Option D) := do
  let shares := decI (← checked (s.underlyingLots.toInt * multiplier.toInt))
  let stockValue ← mul (Decimal.abs shares) m.price
  let stockInitial ← mul m.initialFraction stockValue
  let stockMaintenance ← mul m.maintenanceFraction stockValue
  if s.name = "Naked Call" ∨ s.name = "Naked Put" then
    m.nakedLeg (← first s) (s.name = "Naked Put")
  else if s.name ∈ ["Long Call", "Long Put", "Call Calendar Spread", "Put Calendar Spread"] then
    pure (0, 0, some 0)
  else if s.name ∈ ["Bear Call Spread", "Bull Call Spread", "Call Diagonal Spread"] then do
    let width ← m.width s .call
    pure (width, width, some width)
  else if s.name ∈ ["Bear Put Spread", "Bull Put Spread", "Put Diagonal Spread"] then do
    let width ← m.width s .put
    pure (width, width, some width)
  else if s.name = "Short Call Calendar Spread" ∨ s.name = "Short Put Calendar Spread" then
    match s.legs.find? (·.2.toInt < 0) with
    | none => refuse s!"{s.name} has no short leg"
    | some x => m.nakedLeg x ((m.ctx x.1).right = .put)
  else if s.name = "Covered Call" then m.coveredCall s shares stockValue stockInitial stockMaintenance
  else if s.name = "Protective Put" ∨ s.name = "Protective Call" then
    m.protective s stockInitial stockMaintenance
  else if s.name = "Covered Put" then m.coveredPut s stockInitial
  else if s.name = "Protective Collar" then m.protectiveCollar s stockInitial
  else refuse s!"No margin formula for {s.name}"

/-- The distinct multipliers, ascending. -/
def sortedMultipliers (ctx : Fin n → Contract D) (legs : List (Fin n)) : List Int :=
  ((legs.map fun c => (ctx c).multiplier.toInt).insertionSort (· ≤ ·)).dedup

def listText (values : List Int) : String :=
  "[" ++ ", ".intercalate (values.map toString) ++ "]"

/-- The one multiplier of the contracts, or the refusal that lists them all. -/
def oneMultiplier (ctx : Fin n → Contract D) (legs : List (Fin n)) (mixes : String) : Result Int64 :=
  match sortedMultipliers ctx legs with
  | [multiplier] => .ok (.ofInt multiplier)
  | found => refuse s!"{mixes} contract multipliers {listText found} (I6)"

/-- Entry prices give the credit taken in; it is unknown when one of them is. -/
def netOfCredit (m : Market n D) (s : Matched n) (maintenance : D) : Result (Option D) :=
  match m.entries with
  | none => pure none
  | some entries =>
      match s.legs.mapM (fun x => (entries x.1).map (x, ·)) with
      | none => pure none
      | some priced => do
          let opened ← priced.foldlM (fun opened x => do
            add opened (← mul3 x.2 (decI (m.ctx x.1.1).multiplier) (decI x.1.2))) 0
          some <$> sub maintenance (max (Decimal.neg opened) 0)

end Market

open Market in
/-- Margin one matched strategy. Initial margin also carries the net premium when the strategy was
bought for a debit; a credit adds nothing. -/
def strategyMargin (s : Matched n) (m : Market n D) : Result (StrategyMargin n D) := do
  if m.price ≤ 0 then
    throw (.option s!"No price for {m.underlying} (I5)")
  s.legs.forM fun x =>
    if (m.marks x.1).any (0 < ·) then pure () else refuse (m.noMark x.1)
  let multiplier ← oneMultiplier m.ctx (s.legs.map (·.1)) s!"{s.name} mixes"
  let (initial, maintenance, cash) ← m.formula s multiplier
  let premium ← s.legs.foldlM (fun premium x => do add premium (← m.value x.1 x.2)) 0
  let net ← m.netOfCredit s maintenance
  let shares := decI (← checked (s.underlyingLots.toInt * multiplier.toInt))
  let initial ← add initial (max premium 0)
  pure
    { name := s.name
      underlying := m.underlying
      quantity := s.quantity
      legs := s.legs
      shares := shares
      initial := initial
      maintenance := maintenance
      cashSecured := cash
      netOfCredit := net }

end

end TradeEngine.Margin
