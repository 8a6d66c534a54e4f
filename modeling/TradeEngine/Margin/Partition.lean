import TradeEngine.Margin.Search

/-!
# Partitions of a book

What a grouping is for, apart from how one is found: instances of the permitted definitions, of any
number of units, and long contracts standing alone, that together use the book and its lots, each
contract on its own side.
-/

namespace TradeEngine.Margin

variable {n : Nat} {D : Type}

/-- `p` is some of `w`, on its side. -/
def Part (p w : Int) : Prop := 0 ≤ p ∧ p ≤ w ∨ w ≤ p ∧ p ≤ 0

instance (p w : Int) : Decidable (Part p w) := inferInstanceAs (Decidable (_ ∨ _))

/-- Signed contracts of `c` over the legs. -/
def uses (legs : List (Fin n × Int64)) (c : Fin n) : Int :=
  (legs.map fun l => if l.1 = c then l.2.toInt else 0).sum

section
variable [LinearOrder D] (ctx : Fin n → Contract D)

/-- The contracts can stand on the legs, after `chosen` on the legs before them. -/
def Seated (chosen : List (Fin n)) : List LegDef → List (Fin n) → Prop
  | [], [] => True
  | leg :: legs, c :: cs =>
      c ∉ chosen ∧ (ctx c).right = leg.right ∧
        (∀ p ∈ leg.predicates, ∀ f ∈ chosen.head?, p.holds (ctx f) (ctx c) = true) ∧
        Seated (chosen ++ [c]) legs cs
  | _, _ => False

/-- `m` is `units` of the definition on the contracts `cs`. -/
structure Instance (d : StratDef) (cs : List (Fin n)) (units : Int) (m : Matched n) : Prop where
  pos : 0 < units
  seated : Seated ctx [] d.legs cs
  name : m.name = d.name
  quantity : m.quantity.toInt = units
  legs : m.legs.map (fun l => (l.1, l.2.toInt)) =
    (cs.zip d.legs).map fun x => (x.1, x.2.quantity.toInt * units)
  underlyingLots : m.underlyingLots.toInt = d.underlyingLots.toInt * units

/-- A row of a grouping. -/
inductive Row (defs : List StratDef) : Matched n → Prop
  | strategy {d : StratDef} {cs : List (Fin n)} {units : Int} {m : Matched n} (hd : d ∈ defs)
      (h : Instance ctx d cs units m) : Row defs m
  | long {c : Fin n} {q : Int64} (h : 0 < q.toInt) : Row defs (long ctx c q)

/-- The rows take from the book and the lots what is missing afterwards, never across sides. -/
structure Leaves (defs : List StratDef) (book : Book n) (lots : Int64) (rows : List (Matched n))
    (book' : Book n) (lots' : Int64) : Prop where
  valid : ∀ m ∈ rows, Row ctx defs m
  contracts : ∀ c, (rows.map fun m => uses m.legs c).sum + (book'.qtyOf c).toInt = (book.qtyOf c).toInt
  side : ∀ m ∈ rows, ∀ l ∈ m.legs, Part l.2.toInt (book.qtyOf l.1).toInt
  rest : ∀ c, Part (book'.qtyOf c).toInt (book.qtyOf c).toInt
  shares : (rows.map (·.underlyingLots.toInt)).sum + lots'.toInt = lots.toInt
  lotSide : ∀ m ∈ rows, Part m.underlyingLots.toInt lots.toInt
  lotRest : Part lots'.toInt lots.toInt

/-- The rows use every contract of the book, and `left` of the lots are used by none. -/
def Partition (defs : List StratDef) (book : Book n) (lots : Int64) (rows : List (Matched n))
    (left : Int64) : Prop :=
  ∃ nothing : Book n, (∀ c, (nothing.qtyOf c).toInt = 0) ∧ Leaves ctx defs book lots rows nothing left

/-- That many units of the definition on these contracts are there. -/
def Room (d : StratDef) (cs : List (Fin n)) (book : Book n) (lots : Int64) (units : Int) : Prop :=
  (∀ x ∈ cs.zip d.legs, Part (x.2.quantity.toInt * units) (book.qtyOf x.1).toInt) ∧
    Part (d.underlyingLots.toInt * units) lots.toInt

/-- As many units as are there. -/
def Full (d : StratDef) (cs : List (Fin n)) (book : Book n) (lots : Int64) (units : Int) : Prop :=
  Room d cs book lots units ∧ ¬ Room d cs book lots (units + 1)

/-- A grouping that places the first contract still held, again and again, and takes every strategy as
often as it fits when it is taken. -/
inductive Saturated (defs : List StratDef) : Book n → Int64 → List (Matched n) → Int64 → Prop
  | nil {items : Book n} {lots : Int64} (h : items.entries = []) : Saturated defs items lots [] lots
  | strategy {items rest : Book n} {lots lots' left : Int64} {first : Fin n × Int64} {d : StratDef}
      {cs : List (Fin n)} {units : Int} {m : Matched n} {rows : List (Matched n)}
      (hfirst : items.entries.head? = some first) (hc : first.1 ∈ cs) (hd : d ∈ defs)
      (hm : Instance ctx d cs units m) (hfull : Full d cs items lots units)
      (hrest : items.take m.legs = .ok rest) (hlots : lots'.toInt = lots.toInt - m.underlyingLots.toInt)
      (h : Saturated defs (rest.retain.sorted ctx) lots' rows left) :
      Saturated defs items lots (m :: rows) left
  | long {items rest : Book n} {lots left : Int64} {first : Fin n × Int64} {rows : List (Matched n)}
      (hfirst : items.entries.head? = some first) (hq : 0 < first.2.toInt)
      (hrest : items.take [first] = .ok rest) (h : Saturated defs (rest.retain.sorted ctx) lots rows left) :
      Saturated defs items lots (Margin.long ctx first.1 first.2 :: rows) left

end

/-! ## Contention -/

/-- A definition on contracts. -/
structure Placement (n : Nat) where
  defn : StratDef
  contracts : List (Fin n)

/-- What a row takes: of a contract, and of the lots. -/
def Matched.takes (m : Matched n) : Option (Fin n) → Int
  | none => m.underlyingLots.toInt
  | some c => uses m.legs c

def stock (book : Book n) (lots : Int64) : Option (Fin n) → Int
  | none => lots.toInt
  | some c => (book.qtyOf c).toInt

/-- One unit of it. -/
def Placement.one (p : Placement n) : Matched n :=
  ⟨p.defn.name, 1, (p.contracts.zip p.defn.legs).map fun x => (x.1, x.2.quantity), p.defn.underlyingLots⟩

/-- A permitted strategy of two legs or more, its lots among them, and the most units the book holds. -/
structure Fits [LinearOrder D] (ctx : Fin n → Contract D) (defs : List StratDef) (book : Book n) (lots : Int64)
    (p : Placement n) (units : Int) : Prop where
  mem : p.defn ∈ defs
  legCount : 2 ≤ p.defn.legCount
  seated : Seated ctx [] p.defn.legs p.contracts
  pos : 0 < units
  full : Full p.defn p.contracts book lots units

/-- What a strategy that fits twice takes of, is enough for all that fit, each at its most units. -/
def Uncontested [LinearOrder D] (ctx : Fin n → Contract D) (defs : List StratDef) (book : Book n) (lots : Int64) :
    Prop :=
  ∀ p units, Fits ctx defs book lots p units → 2 ≤ units → ∀ all : List (Placement n × Int), all.Nodup →
    (∀ e ∈ all, Fits ctx defs book lots e.1 e.2) → ∀ r, p.one.takes r ≠ 0 →
      Part (all.map fun e => e.1.one.takes r * e.2).sum (stock book lots r)

/-- A definition that takes any short of its right. -/
def naked (name : String) (right : Right) : StratDef := ⟨name, 0, [short right []]⟩

def nakedOf : Right → StratDef
  | .call => naked "Naked Call" .call
  | .put => naked "Naked Put" .put

/-- Every definition has a leg, and those of one leg and no lots are the naked shorts, both permitted. -/
structure Plain (defs : List StratDef) : Prop where
  legs : ∀ d ∈ defs, d.legs ≠ []
  alone : ∀ d ∈ defs, d.legCount = 1 → ∃ right, d = nakedOf right
  naked : ∀ right, nakedOf right ∈ defs

/-! ## Exact figures -/

/-- The numbers a decimal stands for. Its order, whole numbers, constants and signs are exact; sums and
products need not be. -/
structure Reading (D : Type) [Decimal D] where
  val : D → ℚ
  le : ∀ a b, a ≤ b ↔ val a ≤ val b
  zero : val 0 = 0
  ofInt : ∀ q : Int64, val (decI q) = q.toInt
  ofParts : ∀ units scale, units < 2 ^ 63 → scale ≤ 28 → val (Decimal.ofParts units scale) = units / 10 ^ scale
  neg : ∀ a, val (Decimal.neg a) = -val a
  abs : ∀ a, val (Decimal.abs a) = |val a|

namespace Unrounded

/-- Numbers without a limit of digits. -/
scoped instance rational : Decimal ℚ where
  ofInt k := k
  ofParts units scale := units / 10 ^ scale
  add a b := some (a + b)
  sub a b := some (a - b)
  mul a b := some (a * b)
  div a b := if b = 0 then none else some (a / b)
  neg a := -a
  abs a := |a|
  toI64 a := (checked (a.num.tdiv a.den)).toOption
  text a := toString a

end Unrounded

open Unrounded

namespace Reading
variable [Decimal D] (R : Reading D)

/-- The library with each result that would be rounded refused. -/
@[reducible] def exact : Decimal D :=
  { (inferInstance : Decimal D) with
    add := fun a b => (Decimal.add a b).filter (R.val · = R.val a + R.val b)
    sub := fun a b => (Decimal.sub a b).filter (R.val · = R.val a - R.val b)
    mul := fun a b => (Decimal.mul a b).filter (R.val · = R.val a * R.val b) }

def contract (c : Contract D) : Contract ℚ :=
  ⟨c.root, c.expiry, R.val c.strike, c.right, c.multiplier, c.occ, c.style⟩

def market (m : Market n D) : Market n ℚ :=
  ⟨fun c => R.contract (m.ctx c), m.underlying, R.val m.price, fun c => (m.marks c).map R.val,
    m.entries.map fun e c => (e c).map R.val, R.val m.initialFraction, R.val m.maintenanceFraction⟩

def search (x : Search n D) : Search n ℚ := ⟨R.market x.market, x.defs, x.multiplier, x.limit⟩

end Reading

/-! ## Costs -/

/-- What a row costs at the market's prices. -/
def RowCost (x : Search n ℚ) (m : Matched n) (v : Cost ℚ) : Prop :=
  ∃ f, strategyMargin m x.market = .ok f ∧ v = Search.costOf m f

/-- A grouping costs what its rows cost and what the lots left over cost as plain stock. -/
def Costs (x : Search n ℚ) (rows : List (Matched n)) (left : Int64) (v : Cost ℚ) : Prop :=
  ∃ vs stock, List.Forall₂ (RowCost x) rows vs ∧ x.lotsCost left = .ok stock ∧ v = vs.sum + stock

section
variable [Decimal D]

/-- No partition of the book costs less. -/
def Cheapest (R : Reading D) (x : Search n D) (book : Book n) (lots : Int64) (rows : List (Matched n))
    (left : Int64) : Prop :=
  ∃ v, Costs (R.search x) rows left v ∧ ∀ rows' left' v', Partition x.market.ctx x.defs book lots rows' left' →
    Costs (R.search x) rows' left' v' → v ≤ v'

/-- The search gives up on the book. -/
def Search.hitsLimit (x : Search n D) (book : Book n) (lots : Int64) : Bool :=
  match x.lean book lots ⟨[], []⟩ with
  | (.ok _, c) => match (x.bestOf book lots c).1 with
    | .error .tooLarge => true
    | _ => false
  | _ => false

theorem Search.hitsLimit_tooLarge {x : Search n D} {book : Book n} {lots : Int64} {g : Grouping n D}
    {c c' : Cache n D} (hlean : x.lean book lots ⟨[], []⟩ = (.ok g, c))
    (h : x.bestOf book lots c = (.error .tooLarge, c')) : x.hitsLimit book lots = true := by
  unfold hitsLimit
  rw [hlean]
  simp only [h]

end

end TradeEngine.Margin
