import TradeEngine.Sim.Snapshot
import TradeEngine.Lib.HalfEven

/-!
# Combo prices in exact arithmetic

The prices of a combo's limit order as the venue finds them, with rational numbers for decimals: only the tick
rounds.
-/

namespace TradeEngine.Sim.Snapshot.Exact

open Lib Oms

/-- To the tick, half to even. -/
def quantize (p : ℚ) : ℚ := roundPlaces 4 p

def div (a b : ℚ) : R ℚ :=
  if b = 0 then .error (derr (if a = 0 then .invalidOperation else .divisionByZero)) else .ok (a / b)

/-- What one leg adds to a combo's net at a price. -/
def term (shaded : Side) (leg : ComboLeg) (price : ℚ) : ℚ :=
  (if leg.side = shaded then 1 else -1) * leg.ratio * price * multiplierOf leg.contract

def total (shaded : Side) (priced : List (ComboLeg × ℚ)) : ℚ := (priced.map fun x => term shaded x.1 x.2).sum

def net (shaded : Side) (scale : ℚ) (priced : List (ComboLeg × ℚ)) : R ℚ := div (total shaded priced) scale

def kept (shaded : Side) (scale : ℚ) (priced : List (ComboLeg × ℚ)) : R ℚ :=
  div (priced.map fun x => if x.1.side ≠ shaded then (x.1.ratio : ℚ) * x.2 * multiplierOf x.1.contract else 0).sum scale

/-- The larger of the best leg so far and the next, on the shaded side. -/
def larger (shaded : Side) (best : Option (Nat × ℚ)) (x : (ComboLeg × ℚ) × Nat) : Option (Nat × ℚ) :=
  if x.1.1.side ≠ shaded then best
  else match best with
    | none => some (x.2, x.1.2)
    | some (i, p) => some (if p < x.1.2 then (x.2, x.1.2) else (i, p))

def largest (shaded : Side) (priced : List (ComboLeg × ℚ)) : Option Nat :=
  (priced.zipIdx.foldl (larger shaded) none).map (·.1)

def settleResidue (o : VOrder) (scale residue : ℚ) (filled : List ℚ) : R (List ℚ) :=
  if residue = 0 then pure filled
  else match largest o.side ((legs o).zip filled) with
    | none => err .value "max() iterable argument is empty"
    | some i => match (legs o)[i]?, filled[i]? with
      | some leg, some price => do
        let step ← div (residue * scale) (leg.ratio * multiplierOf leg.contract : Int)
        pure (filled.set i (price + step))
      | _, _ => pure filled

/-- The model net falls short of the limit. -/
def missed (side : Side) (model limit : ℚ) : Bool :=
  match side with
  | .sell => model < limit
  | .buy => model > limit

/-- The favourable legs scaled until the net is the limit. -/
def shadedPrices (o : VOrder) (scale limit model : ℚ) (priced : List (ComboLeg × ℚ)) : R (Option (List ℚ)) := do
  let kept ← kept o.side scale priced
  let factor ← div (limit + kept) (model + kept)
  let filled := priced.map fun x => quantize (if x.1.side = o.side then x.2 * factor else x.2)
  let residue := limit - (← net o.side scale ((legs o).zip filled))
  let filled ← settleResidue o scale residue filled
  pure (if filled.any (· ≤ 0) then none else some filled)

def comboPrices (o : VOrder) (limit : ℚ) (prices : List ℚ) : R (Option (List ℚ)) := do
  let scale : ℚ := (← multiplier o : Int)
  let priced := (legs o).zip prices
  let model ← net o.side scale priced
  if missed o.side model limit then pure none else shadedPrices o scale limit model priced

/-- The price each leg fills at, or none if the order does not fill. -/
def fillPrices (o : VOrder) (prices : List ℚ) : R (Option (List ℚ)) :=
  if o.otype = .market then pure (some (prices.map quantize))
  else match o.limit with
    | none => err .snapshot s!"LIMIT order '{o.id}' has no limit price"
    | some limit =>
      if isCombo o then comboPrices o limit.val prices
      else match prices with
        | [] => pure none
        | price :: _ =>
          let through : Bool := match o.side with
            | .sell => price ≥ limit.val
            | .buy => price ≤ limit.val
          pure (if through then some [limit.val] else none)

end TradeEngine.Sim.Snapshot.Exact
