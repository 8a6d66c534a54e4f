import TradeEngine.Options.Occ

/-!
# Reading an amount

A decimal literal: whitespace stripped, underscores dropped, any Unicode decimal digit, an exponent. A value that does not
fit is refused, never rounded.
-/

namespace TradeEngine.Money

/-- A literal with a larger exponent is a syntax error. -/
def maxLiteralExp : Int := 999999999999999999

/-- The magnitude of an exponent in an `i128` that saturates. -/
def expMagnitude (ds : List Char) : Int := ds.foldl (fun mag c => min (mag * 10 + digitVal c) ((2 ^ 127 - 1) / 20)) 0

/-- The sign a text starts with, and the rest. -/
def splitSign : List Char → Bool × List Char
  | '-' :: l => (true, l)
  | '+' :: l => (false, l)
  | l => (false, l)

/-- What follows the digits: nothing, or an exponent. -/
def literalExp (l : List Char) : DecResult Int :=
  match l with
  | [] => .ok 0
  | c :: l =>
    if c = 'e' ∨ c = 'E' then
      let (neg, l) := splitSign l
      let ds := l.takeWhile isDigit
      if ds = [] ∨ l.dropWhile isDigit ≠ [] then .error .invalidOperation
      else .ok (if neg then -expMagnitude ds else expMagnitude ds)
    else .error .invalidOperation

/-- The value of the digits `all` at the exponent `total`; only the significant digits matter. -/
def fromDigits (neg : Bool) (all : List Char) (total : Int) : DecResult Money :=
  let digits := all.dropWhile (digitVal · = 0)
  if digits = [] then .ok zero
  else
    let sig := (digits.reverse.dropWhile (digitVal · = 0)).reverse
    let e := total + (digits.length - sig.length : Nat)
    if sig.length > 29 ∨ e > 38 ∨ e < -(maxScale : Int) - 29 then .error .overflow
    else build neg (digitsNumber sig) e

/-- What follows the whole digits: the digits after a point, and the rest. -/
def splitFraction : List Char → List Char × List Char
  | '.' :: l => (l.takeWhile isDigit, l.dropWhile isDigit)
  | l => ([], l)

/-- An unsigned literal. -/
def literal (neg : Bool) (chars : List Char) : DecResult Money :=
  let whole := chars.takeWhile isDigit
  let (frac, rest) := splitFraction (chars.dropWhile isDigit)
  if whole = [] ∧ frac = [] then .error .invalidOperation
  else do
    let exp ← literalExp rest
    let total := exp - frac.length
    if total.natAbs > maxLiteralExp ∨ exp.natAbs > maxLiteralExp then .error .invalidOperation
    else fromDigits neg (whole ++ frac) total

/-- A finite literal, telling a syntax error from a value outside the bound. -/
def tryParse (text : String) : DecResult Money :=
  let (neg, chars) := splitSign ((TradeEngine.strip text).toList.filter (· != '_'))
  literal neg chars

def parse (text : String) : Option Money := (tryParse text).toOption

end TradeEngine.Money
