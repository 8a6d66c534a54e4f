import TradeEngine.Oms.Structures
import TradeEngine.Ledger.Lemmas.Lots

/-!
# The maximum loss of an options entry

The rule that measures the worst case of a structure at expiry against a fraction of the account's
equity.
-/

namespace TradeEngine.Risk

open Oms (legsOf isStructure contractMultiplier)

/-- A measured value or threshold: text, or a `Decimal`. -/
inductive Measure where
  | s (text : String)
  | d (value : Money)
deriving DecidableEq

structure RuleResult where
  name : String
  passed : Bool
  measured : Measure
  threshold : Measure
  reason : String
deriving DecidableEq

/-- An entry as the rules read it. -/
structure Intent where
  instrument : Instrument
  side : Side
  quantity : Money
  limitPrice : Option Money

/-! ## Attributes -/

def typeName : Contract → String
  | .equity _ => "Equity"
  | .option _ => "OptionContract"
  | .future _ => "Future"

def noAttr {α : Type} (c : Contract) (attr : String) : R α :=
  err .attribute ("'" ++ typeName c ++ "' object has no attribute '" ++ attr ++ "'")

def rightOf : Contract → R Right
  | .option c => .ok c.right
  | other => noAttr other "right"

def expiryOf : Contract → R NaiveDate
  | .option c => .ok c.expiry
  | other => noAttr other "expiry"

def strikeOf : Contract → R Money
  | .option c => .ok c.strike
  | other => noAttr other "strike"

/-! ## The worst case -/

variable (A : Arith)

/-- `per * m * units`. -/
def scaled (per : Money) (m : Int) (units : Money) : R Money := do
  Ops.mul A (← Ops.mulI A per m) units

/-- Two legs on one right and expiry, one contract each: read one after the other, as `&&` does. -/
def sameShape (a b : ComboLeg) : R Bool := do
  if (← rightOf a.contract) = (← rightOf b.contract) then
    if (← expiryOf a.contract) = (← expiryOf b.contract) then pure (a.ratio = b.ratio ∧ b.ratio = 1)
    else pure false
  else pure false

/-- The worst case of a structure at expiry, `none` when it has no bound. -/
def maxLoss (intent : Intent) (price : Money) : R (Option Money) := do
  let legs := legsOf intent.instrument intent.side
  let m ← (match legs.head? with
    | some leg => contractMultiplier leg.contract
    | none => err .value "a structure with no legs" : R Int)
  let units := intent.quantity
  match intent.instrument, legs with
  | .single (.equity _), _ => some <$> Ops.mul A price units
  | _, [leg] =>
    if leg.side = .buy then some <$> scaled A price m units
    else if (← rightOf leg.contract) = .put then
      some <$> scaled A (← Ops.sub A (← strikeOf leg.contract) price) m units
    else pure none
  | _, [a, b] =>
    if (← sameShape a b) && a.side ≠ b.side then do
      let width ← Ops.abs A (← Ops.sub A (← strikeOf a.contract) (← strikeOf b.contract))
      if intent.side = .sell then some <$> scaled A (← Ops.sub A width price) m units
      else some <$> scaled A price m units
    else pure none
  | _, _ => pure none

/-! ## The rule -/

def positive : Option Money → Option Money
  | some e => if e.gt .zero then some e else none
  | none => none

/-- The fraction of a positive equity. -/
def capOf (equity : Option Money) (frac : Money) : R (Option Money) :=
  match positive equity with
  | some e => some <$> Ops.mul A e frac
  | none => pure none

def dOr (d : Option Money) (text : String) : Measure :=
  match d with
  | some v => .d v
  | none => .s text

def optLe : Option Money → Option Money → Bool
  | some a, some b => a.le b
  | _, _ => false

def record (name : String) (passed : Bool) (measured threshold : Measure) (success refusal : String) :
    RuleResult := ⟨name, passed, measured, threshold, if passed then success else refusal⟩

def notConfigured (name : String) : RuleResult :=
  ⟨name, true, .s "n/a", .s "n/a", name ++ " is not configured for this account"⟩

/-- The `max_loss` rule of `evaluate`. -/
def maxLossRule (frac : Option Money) (equity : Option Money) (intent : Intent) (price : Option Money) :
    R RuleResult :=
  match frac with
  | none => pure (notConfigured "max_loss")
  | some frac => do
    let loss ← (match price with
      | some p => maxLoss A intent p
      | none => pure none : R (Option Money))
    let limit ← capOf A equity frac
    pure (record "max_loss" (loss.isSome && limit.isSome && optLe loss limit)
      (dOr loss "UNBOUNDED or UNKNOWN") (dOr limit "UNKNOWN")
      "The structure's maximum loss is within the per-structure cap"
      "The structure's maximum loss is unbounded, unknown or over the cap")

end TradeEngine.Risk
