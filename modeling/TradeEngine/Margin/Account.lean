import TradeEngine.Margin.Search

/-!
# The margin of an account

Reg-T figures for every position of an account: options by underlying, with the shares they use, and the
shares that are left.
-/

namespace TradeEngine.Margin

/-- What the account reads of the decimal library besides. -/
class AccountDecimal (D : Type) extends Decimal D where
  ofMoney : Money → D
  /-- Toward zero. -/
  trunc : D → D

/-! ## Maps in key order -/

section
variable {V : Type}

/-- Set a key of a map that is kept in key order. -/
def setKey (key : String) (v : V) : List (String × V) → List (String × V)
  | [] => [(key, v)]
  | e :: m => if key < e.1 then (key, v) :: e :: m else if key = e.1 then (key, v) :: m else e :: setKey key v m

end

/-! ## One position -/

section
variable {D : Type} [AccountDecimal D]

def initialFraction : D := Decimal.ofParts 50 2

def maintenanceFraction : D := Decimal.ofParts 25 2

/-- The binding overnight requirement is the maintenance figure; what is available is equity less it. -/
def marginSummary (equity maintenance : D) : Result (D × D) := do pure (maintenance, ← sub equity maintenance)

structure Requirement (D : Type) where
  marketValue : D
  initial : D
  maintenance : D

/-- The signed quantity picks long or short value. -/
def marginRequirement (quantity mark : D) (fractions : Option (D × D)) : Result (Requirement D) := do
  if quantity = 0 then .error (.value "margin_requirement needs a non-zero quantity")
  else if mark ≤ 0 then .error (.value ("Mark must be positive, got " ++ Decimal.text mark ++ " (I5)"))
  else do
    let marketValue ← mul quantity mark
    let magnitude := Decimal.abs marketValue
    let fractions := fractions.getD (initialFraction, maintenanceFraction)
    pure ⟨marketValue, ← mul fractions.1 magnitude, ← mul fractions.2 magnitude⟩

inductive PositionKind where
  | equity
  | option
  | combo
deriving DecidableEq, Repr

structure AccountPosition (n : Nat) (D : Type) where
  symbol : String
  kind : PositionKind
  quantity : D
  mark : Option D
  multiplier : Int64
  flat : Bool
  /-- In the contract table, for an option. -/
  contract : Option (Fin n)
  avgCost : Option D

structure EquityLine (D : Type) where
  symbol : String
  quantity : D
  mark : D
  requirement : Requirement D

structure AccountMargin (n : Nat) (D : Type) where
  equity : D
  cash : D
  marketValueLong : D
  marketValueShort : D
  grossExposure : D
  netExposure : D
  marginInitial : D
  marginMaintenance : D
  positions : List (EquityLine D)
  strategies : List (StrategyMargin n D)

structure AccountInput (n : Nat) (D : Type) where
  cash : D
  positions : List (AccountPosition n D)
  contracts : Fin n → Contract D
  /-- Marks of the equities in the account state, by symbol. -/
  equityMarks : String → Option D
  underlyingPrices : String → Option D
  overrides : String → Option (D × D)
  definitions : List StratDef
  searchLimit : Nat

/-! ## Positions into books -/

def whole (quantity : D) (what : String) : Result Int64 :=
  if quantity ≠ AccountDecimal.trunc quantity then
    refuse (what ++ " holds a fractional " ++ Decimal.text quantity ++ " contracts (I5)")
  else
    (Decimal.toI64 quantity).elim
      (refuse (what ++ " holds " ++ Decimal.text quantity ++ " contracts, out of range (I5)")) .ok

variable {n : Nat}

/-- The contract's slot is set, or pushed. -/
def Book.hold (b : Book n) (c : Fin n) (q : Int64) : Book n :=
  if h : b.entries.any (·.1 = c) then b.set c q
  else
    ⟨b.entries ++ [(c, q)], by
      rw [List.map_append, List.map_cons, List.map_nil, List.nodup_append]
      refine ⟨b.once, List.nodup_singleton _, fun x hx y hy => ?_⟩
      rw [List.mem_singleton.1 hy]
      rintro rfl
      obtain ⟨e, he, hkey⟩ := List.mem_map.1 hx
      exact h (List.any_eq_true.2 ⟨e, he, decide_eq_true hkey⟩)⟩

/-- What the positions make, before any margin. -/
structure Tally (n : Nat) (D : Type) where
  long : D
  short : D
  shares : List (String × D)
  shareMarks : String → Option D
  books : List (String × Book n)
  avgCosts : Fin n → Option D
  contractMarks : Fin n → Option D

def Tally.new : Tally n D :=
  { long := 0, short := 0, shares := [], shareMarks := fun _ => none, books := [], avgCosts := fun _ => none,
    contractMarks := fun _ => none }

/-- Market value goes to its side. -/
def Tally.value (t : Tally n D) (value : D) : Result (Tally n D) :=
  if 0 < value then do pure { t with long := ← add t.long value }
  else do pure { t with short := ← add t.short value }

def Tally.optionPosition (x : AccountInput n D) (t : Tally n D) (p : AccountPosition n D) (mark : D) :
    Result (Tally n D) :=
  match p.contract with
  | none => .error (.value "option position without a contract")
  | some c =>
    match (x.contracts c).style with
    | .unresolved message => .error (.unresolvable message)
    | .resolved underlying _ => do
      let held ← whole p.quantity (x.contracts c).occ
      let book := ((t.books.lookup underlying).getD ⟨[], List.nodup_nil⟩).hold c held
      pure { t with
        books := setKey underlying book t.books
        contractMarks := fun i => if i = c then some mark else t.contractMarks i
        avgCosts := fun i => if i = c then p.avgCost.or (t.avgCosts i) else t.avgCosts i }

def Tally.position (x : AccountInput n D) (t : Tally n D) (p : AccountPosition n D) : Result (Tally n D) := do
  if p.flat then pure t
  else
    match p.mark.filter (0 < ·) with
    | none => .error (.value ("No session-close mark for open position " ++ p.symbol ++ " (I5)"))
    | some mark =>
      if p.kind = .combo then .error (.option ("Combo position " ++ p.symbol ++ " must be held per leg (I6)"))
      else do
        let t ← t.value (← mul (← mul p.quantity mark) (decI p.multiplier))
        if p.kind = .option then t.optionPosition x p mark
        else
          pure { t with
            shares := setKey p.symbol p.quantity t.shares
            shareMarks := fun s => if s = p.symbol then some mark else t.shareMarks s }

/-! ## The roll-up -/

structure Figures (n : Nat) (D : Type) where
  initial : D
  maintenance : D
  shares : List (String × D)
  positions : List (EquityLine D)
  strategies : List (StrategyMargin n D)

/-- A grouping that stops has refused; a search is cut before it runs out of rounds. -/
def Stop.refusal : Stop → MarginError
  | .err e => e
  | _ => qtyOverflow

/-- One underlying's options, with its shares. -/
def Figures.book (x : AccountInput n D) (t : Tally n D) (f : Figures n D) (e : String × Book n) :
    Result (Figures n D) :=
  match (((x.underlyingPrices e.1).or (x.equityMarks e.1)).filter (0 < ·)) with
  | none => refuse ("No underlying price for " ++ e.1 ++ " options (I5)")
  | some price => do
    let fractions := (x.overrides e.1).getD (initialFraction, maintenanceFraction)
    let held i := e.2.entries.any (·.1 = i)
    let market : Market n D :=
      { ctx := x.contracts, underlying := e.1, price := price
        marks := fun i => if held i then t.contractMarks i else none
        entries := some fun i => if held i then t.avgCosts i else none
        initialFraction := fractions.1, maintenanceFraction := fractions.2 }
    let (matched, left) ← (marginBook market e.2 ((f.shares.lookup e.1).getD 0) x.definitions x.searchLimit).mapError
      Stop.refusal
    let initial ← matched.foldlM (fun total s => add total s.initial) f.initial
    let maintenance ← matched.foldlM (fun total s => add total s.maintenance) f.maintenance
    pure { f with
      initial := initial
      maintenance := maintenance
      strategies := f.strategies ++ matched
      shares := if (f.shares.lookup e.1).isSome then setKey e.1 left f.shares else f.shares }

/-- The shares that no option used. -/
def Figures.line (x : AccountInput n D) (t : Tally n D) (f : Figures n D) (e : String × D) : Result (Figures n D) :=
  if e.2 = 0 then pure f
  else do
    let mark := (t.shareMarks e.1).getD 0
    let requirement ← marginRequirement e.2 mark (x.overrides e.1)
    pure { f with
      initial := ← add f.initial requirement.initial
      maintenance := ← add f.maintenance requirement.maintenance
      positions := f.positions ++ [⟨e.1, e.2, mark, requirement⟩] }

/-- Every open position must carry a mark at the session close, and options their underlying's price. -/
def accountMargin (x : AccountInput n D) : Result (AccountMargin n D) := do
  let ordered := x.positions.insertionSort fun a b => ¬ b.symbol < a.symbol
  let t ← ordered.foldlM (Tally.position x) Tally.new
  let f ← t.books.foldlM (Figures.book x t) ⟨0, 0, t.shares, [], []⟩
  let f ← f.shares.foldlM (Figures.line x t) f
  let equity ← add (← add x.cash t.long) t.short
  pure
    { equity := equity, cash := x.cash, marketValueLong := t.long, marketValueShort := t.short
      grossExposure := ← add t.long (Decimal.abs t.short), netExposure := ← add t.long t.short
      marginInitial := f.initial, marginMaintenance := f.maintenance, positions := f.positions
      strategies := f.strategies }

end

end TradeEngine.Margin
