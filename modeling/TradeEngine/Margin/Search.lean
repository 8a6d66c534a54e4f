import TradeEngine.Lib.Program
import TradeEngine.Margin.Formula

/-!
# The cheapest grouping

LEAN takes its greedy grouping as found; the groupings that place the first remaining contract, and
then the rest, are searched as well, with the books already seen remembered. The fewest naked short
contracts win, then the least maintenance, then the least initial margin.
-/

namespace TradeEngine.Margin

open Lib Prog

/-- Naked short contracts, maintenance, initial, compared in that order. -/
abbrev Cost (D : Type) := D ×ₗ D ×ₗ D

structure Grouping (n : Nat) (D : Type) where
  cost : Cost D
  strategies : List (Matched n)
  left : Int64

/-- What a search has remembered: the best grouping of each book, the figures of each strategy. -/
structure Cache (n : Nat) (D : Type) where
  memo : List ((Book n × Int64) × Option (Grouping n D))
  priced : List (Matched n × StrategyMargin n D)

structure Search (n : Nat) (D : Type) where
  market : Market n D
  defs : List StratDef
  multiplier : Int64
  limit : Nat

section
variable {n : Nat} {D : Type} [Decimal D]

def cost (naked maintenance initial : D) : Cost D := toLex (naked, toLex (maintenance, initial))

def addCost (a b : Cost D) : Result (Cost D) := do
  let naked ← add (ofLex a).1 (ofLex b).1
  let maintenance ← add (ofLex (ofLex a).2).1 (ofLex (ofLex b).2).1
  let initial ← add (ofLex (ofLex a).2).2 (ofLex (ofLex b).2).2
  pure (cost naked maintenance initial)

abbrev Searching (n : Nat) (D : Type) := Prog Stop (Cache n D)

namespace Search

def figures (x : Search n D) (s : Matched n) : Searching n D (StrategyMargin n D) := do
  match (← gets (·.priced)).find? (·.1 = s) with
  | some found => pure found.2
  | none => do
      let figures ← lift (Stop.lift (strategyMargin s x.market))
      modify fun c => { c with priced := (s, figures) :: c.priced }
      pure figures

def isNaked (s : Matched n) : Bool := s.name = "Naked Call" || s.name = "Naked Put"

def costOf (s : Matched n) (margin : StrategyMargin n D) : Cost D :=
  cost (if isNaked s then decI s.quantity else 0) margin.maintenance margin.initial

def strategyCost (x : Search n D) (s : Matched n) : Searching n D (Cost D) := do
  pure (costOf s (← x.figures s))

def lotsCost (x : Search n D) (left : Int64) : Result (Cost D) := do
  let value ← mul3 (decI (← checked left.toInt.natAbs)) (decI x.multiplier) x.market.price
  let maintenance ← mul x.market.maintenanceFraction value
  let initial ← mul x.market.initialFraction value
  pure (cost 0 maintenance initial)

def items (x : Search n D) (book : Book n) : Book n := book.retain.sorted x.market.ctx

/-- The strategies that include the first remaining contract; a long one may also stand alone. -/
def candidates (x : Search n D) (items : Book n) (first : Fin n × Int64) (lots : Int64) :
    Result (List (Matched n)) := do
  let found ← x.defs.mapM fun d => matchesOf d x.market.ctx items lots none
  let including := found.flatten.filter fun m => m.legs.any (·.1 = first.1)
  pure (including ++ if 0 < first.2.toInt then [long x.market.ctx first.1 first.2] else [])

/-- The candidate with the best grouping of what it leaves, kept when it is cheaper. -/
def place (x : Search n D) (best : Book n → Int64 → Searching n D (Option (Grouping n D)))
    (items : Book n) (lots : Int64) (found : Option (Grouping n D)) (candidate : Matched n) :
    Searching n D (Option (Grouping n D)) := do
  let remaining ← lift (items.take candidate.legs)
  let next ← lift (Stop.lift (checked (lots.toInt - candidate.underlyingLots.toInt)))
  match ← best (x.items remaining) next with
  | none => pure found
  | some rest =>
      let own ← x.strategyCost candidate
      let cost ← lift (Stop.lift (addCost own rest.cost))
      if found.all (cost < ·.cost) then
        pure (some ⟨cost, candidate :: rest.strategies, rest.left⟩)
      else pure found

/-- A grouping of the items, with `best` for what is left after the first placement. -/
def group (x : Search n D) (best : Book n → Int64 → Searching n D (Option (Grouping n D)))
    (items : Book n) (lots : Int64) : Searching n D (Option (Grouping n D)) :=
  match items.entries with
  | [] => do
      let cost ← lift (Stop.lift (x.lotsCost lots))
      pure (some ⟨cost, [], lots⟩)
  | first :: _ => do
      let candidates ← lift (Stop.lift (x.candidates items first lots))
      candidates.foldlM (x.place best items lots) none

/-- The cheapest grouping of the items, at most `depth` strategies deep. -/
def best (x : Search n D) : Nat → Book n → Int64 → Searching n D (Option (Grouping n D))
  | 0, _, _ => fail .running
  | depth + 1, items, lots => do
      match (← gets (·.memo)).find? (·.1 = (items, lots)) with
      | some found => pure found.2
      | none =>
          if x.limit ≤ (← gets (·.memo)).length then fail .tooLarge
          else do
            let found ← x.group (x.best depth) items lots
            modify fun c => { c with memo := ((items, lots), found) :: c.memo }
            pure found

/-- Each strategy places a contract, so their number bounds the depth. -/
def bestOf (x : Search n D) (book : Book n) (lots : Int64) : Searching n D (Option (Grouping n D)) :=
  x.best (book.size + 1) (x.items book) lots

/-- LEAN's grouping with its cost. -/
def lean (x : Search n D) (book : Book n) (lots : Int64) : Searching n D (Grouping n D) := do
  let (greedy, left) ← lift (matchStrategies x.market.ctx book lots x.defs)
  let start ← lift (Stop.lift (x.lotsCost left))
  let cost ← greedy.foldlM (fun cost s => do
    let own ← x.strategyCost s
    lift (Stop.lift (addCost cost own))) start
  pure ⟨cost, greedy, left⟩

/-- LEAN's grouping wins ties, and stands when the book is too large to search. -/
def choose (x : Search n D) (book : Book n) (lots : Int64) : Searching n D (Grouping n D) := do
  let greedy ← x.lean book lots
  match ← attempt (x.bestOf book lots) with
  | .ok (some searched) => pure (if searched.cost < greedy.cost then searched else greedy)
  | .ok none => pure greedy
  | .error .tooLarge => pure greedy
  | .error e => fail e

end Search

/-- Whole lots, toward zero. -/
def lotsOf (shares : D) (multiplier : Int64) : Result Int64 :=
  ((Decimal.div shares (decI multiplier)).bind Decimal.toI64).elim (.error qtyOverflow) .ok

/-- Margin one underlying's options with the account's signed `shares` of it: the strategies and the
shares none used. -/
def marginBook (market : Market n D) (book : Book n) (shares : D) (defs : List StratDef)
    (searchLimit : Nat) : Except Stop (List (StrategyMargin n D) × D) := do
  let multiplier ← Stop.lift (Market.oneMultiplier market.ctx (book.entries.map (·.1))
    s!"{market.underlying} options mix")
  let lots ← Stop.lift (lotsOf shares multiplier)
  let x : Search n D := ⟨market, defs, multiplier, searchLimit⟩
  let run : Searching n D (List (StrategyMargin n D) × D) := do
    let chosen ← x.choose book lots
    let lotsUsed ← lift (Stop.lift (checked (lots.toInt - chosen.left.toInt)))
    let used ← lift (Stop.lift (checked (lotsUsed.toInt * multiplier.toInt)))
    let figures ← chosen.strategies.mapM x.figures
    let rest ← lift (Stop.lift (sub shares (decI used)))
    pure (figures, rest)
  (run ⟨[], []⟩).1

end

end TradeEngine.Margin
