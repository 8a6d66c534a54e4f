import TradeEngine.Lib.Str
import TradeEngine.Options.Basic

/-!
# OCC symbols

A contract as it crosses from Python, with a strike of any number of digits, the symbol it is written as, and the
parser of symbols.
-/

namespace TradeEngine

open Lib

/-! ## Strikes of any length -/

/-- What `Decimal.as_tuple()` says about a non-finite value. -/
inductive Special where
  | finite
  | inf
  | quietNan
  | signalingNan
deriving DecidableEq

/-- A `Decimal` as `as_tuple()` plus `str(d)`; the digits as the number they spell. -/
structure DecWire where
  neg : Bool
  coefficient : Nat
  exp : Int
  special : Special
  text : String
deriving DecidableEq

namespace DecWire

def eMax : Int := 999999

def eTiny : Int := -eMax - prec + 1

def eTop : Int := eMax - prec + 1

/-- Drop the last digits, rounding half to even. -/
def roundHalfEven (c drop : Nat) : Nat := Money.shiftRoundBig c drop false .halfEven

/-- A coefficient rounded up to one digit too many loses its last zero. -/
def fitDigits (c : Nat) (exp : Int) : Nat × Int := if Money.digits c > prec then (c / 10, exp + 1) else (c, exp)

/-- `strike * Decimal("1000")` under the 28-digit context: the product's coefficient and exponent. -/
def times1000 (strike : DecWire) : Except OptionError (Nat × Int) :=
  if strike.coefficient = 0 then .ok (0, strike.exp)
  else
    let c := strike.coefficient * 1000
    let exact := (Money.digits c : Int) + strike.exp - prec
    if exact > eTop then .error .overflow
    else
      let expMin := max exact eTiny
      let ce := if strike.exp < expMin then fitDigits (roundHalfEven c (expMin - strike.exp).toNat) expMin
        else (c, strike.exp)
      if ce.1 ≠ 0 ∧ (Money.digits ce.1 : Int) + ce.2 - 1 > eMax then .error .overflow else .ok ce

def integralValue (c : Nat) (exp : Int) : Nat :=
  if exp ≥ 0 then c * 10 ^ (min exp 40).toNat else roundHalfEven c (-exp).toNat

def isIntegral (c : Nat) (exp : Int) : Bool := exp ≥ 0 || c % 10 ^ (-exp).toNat == 0

/-- The strike in thousandths, refused outside `1 ..= 99999999`. -/
def strikeMillis (strike : DecWire) : Except OptionError Nat := do
  let ce ← strike.times1000
  let millis := integralValue ce.1 ce.2
  let text := strike.text
  if millis = 0 ∨ millis > 99999999 then .error (.value s!"Strike {text} out of bounds for OCC representation")
  else pure millis

def validateStrike (strike : DecWire) : Except OptionError Unit := do
  let text := strike.text
  if strike.special ≠ .finite ∨ strike.neg ∨ strike.coefficient = 0 then
    .error (.value s!"Strike must be positive and finite, got {text}")
  else
    let ce ← strike.times1000
    if isIntegral ce.1 ce.2 then strikeMillis strike *> pure ()
    else .error (.value s!"Strike cannot have more than 3 decimal places (thousandths), got {text} (I5)")

end DecWire

/-! ## Contracts -/

/-- The strike, the multiplier and the right, in this order; the coerced right. -/
def validateRest (strike : DecWire) (multiplier : Option String) (multiplierText : String) (right : Option String)
    (rightText : String) : Except OptionError Right := do
  strike.validateStrike
  match multiplier with
  | none => .error (.value s!"Multiplier must be an integer, got {multiplierText}")
  | some m =>
    if m.toList.head? = some '-' ∨ m = "0" then .error (.value s!"Multiplier must be positive, got {multiplierText}")
    else
      let code := right.map upper
      if code = some "C" ∨ code = some "CALL" then pure .call
      else if code = some "P" ∨ code = some "PUT" then pure .put
      else .error (.value s!"Invalid option right: {rightText}")

/-- A contract as the shims send it. -/
structure ContractWire where
  underlying : String
  expiry : NaiveDate
  right : Right
  strike : DecWire
deriving DecidableEq

/-- The root padded to 6, the date, the right, the strike in thousandths to 8 digits. -/
def ContractWire.occ (c : ContractWire) : Except OptionError String := do
  let millis ← c.strike.strikeMillis
  pure (c.underlying ++ String.ofList (List.replicate (6 - c.underlying.length) ' ') ++
    padZeros 2 (toString (c.expiry.year % 100)) ++ padZeros 2 (toString c.expiry.month) ++
    padZeros 2 (toString c.expiry.day) ++ c.right.code ++ padZeros 8 (toString millis))

/-! ## Parsing -/

structure ParsedOcc where
  root : String
  year : Int
  month : Nat
  day : Nat
  right : Right
  /-- `Decimal(thousandths) / Decimal(1000)` as it prints. -/
  strikeText : String
deriving DecidableEq

def isDigit (c : Char) : Bool := (digit c).isSome

/-- Six digits, the right and eight digits. -/
def tailShape (l : List Char) : Bool :=
  (l.take 6).all isDigit && l[6]?.any (['C', 'P', 'c', 'p'].contains ·) && (l.drop 7).all isDigit

/-- Root lengths from the longest down; the root's length and where the date starts. -/
def matchFrom (chars : List Char) : Nat → Option (Nat × Nat)
  | 0 => none
  | n + 1 =>
    let i := n + 1 + ((chars.drop (n + 1)).takeWhile isSpace).length
    if chars.length = i + 15 && tailShape (chars.drop i) then some (n + 1, i) else matchFrom chars n

/-- `^([A-Za-z0-9]{1,6})\s*(\d{6})([CPcp])(\d{8})$` on stripped text. -/
def matchOcc (chars : List Char) : Option (Nat × Nat) :=
  matchFrom chars ((chars.take 6).takeWhile Char.isAlphanum).length

def asciiBetween (c : Option Char) (lo hi : Char) : Bool := c.any fun c => lo ≤ c && c ≤ hi

def asciiVal (c : Char) : Nat := c.toNat - 48

def digitVal (c : Char) : Nat := (digit c).getD 0

/-- `1[0-2]|0[1-9]|[1-9]`: what each alternative takes and the month it reads. -/
def monthAlts (a b : Char) : List (Nat × Nat) :=
  (if a = '1' ∧ asciiBetween (some b) '0' '2' then [(2, 10 + asciiVal b)] else []) ++
    (if a = '0' ∧ asciiBetween (some b) '1' '9' then [(2, asciiVal b)] else []) ++
    (if asciiBetween (some a) '1' '9' then [(1, asciiVal a)] else [])

/-- `3[0-1]|[1-2]\d|0[1-9]|[1-9]| [1-9]`. -/
def dayAlts (a b : Option Char) : List (Nat × Nat) :=
  let av := (a.map asciiVal).getD 0
  let bv := (b.map asciiVal).getD 0
  (if a = some '3' ∧ asciiBetween b '0' '1' then [(2, 30 + bv)] else []) ++
    (if asciiBetween a '1' '2' ∧ b.any isDigit then [(2, av * 10 + (b.map digitVal).getD 0)] else []) ++
    (if a = some '0' ∧ asciiBetween b '1' '9' then [(2, bv)] else []) ++
    (if asciiBetween a '1' '9' then [(1, av)] else []) ++
    (if a = some ' ' ∧ asciiBetween b '1' '9' then [(2, bv)] else [])

/-- The first month alternative that a day follows: the month, the day and where they end. -/
def findDate (e : List Char) (a b : Char) : Option (Nat × Nat × Nat) :=
  (monthAlts a b).findSome? fun m =>
    (dayAlts e[2 + m.1]? e[2 + m.1 + 1]?).head?.map fun d => (m.2, d.2, 2 + m.1 + d.1)

/-- CPython's pivot. -/
def pivotYear (y : Nat) : Int := if y ≤ 68 then 2000 + y else 1900 + y

/-- `datetime.strptime(s, "%y%m%d")` on six decimal digits; the first match wins even when it leaves text over. -/
def strptimeYmd (e : List Char) : Except String (Int × Nat × Nat) :=
  match e with
  | y1 :: y2 :: a :: b :: _ =>
    let text := String.ofList e
    match findDate e a b with
    | none => .error s!"time data '{text}' does not match format '%y%m%d'"
    | some (m, d, stop) =>
      let year := pivotYear (digitVal y1 * 10 + digitVal y2)
      let rest := String.ofList (e.drop stop)
      if stop ≠ e.length then .error s!"unconverted data remains: {rest}"
      else if d > daysInMonth year m then .error "day is out of range for month"
      else .ok (year, m, d)
  | _ => .error "time data does not match format"

def rightOf (c : Char) : Right := if c = 'C' ∨ c = 'c' then .call else .put

def digitsNumber (l : List Char) : Nat := l.foldl (fun n c => n * 10 + digitVal c) 0

/-- Without the zeros at its end. -/
def trimEndZeros (l : List Char) : List Char := (l.reverse.dropWhile (· = '0')).reverse

/-- `Decimal(n) / Decimal(1000)` as it prints, with only the decimals it needs. -/
def thousandths (n : Nat) : String :=
  let whole := toString (n / 1000)
  if n % 1000 = 0 then whole
  else whole ++ "." ++ String.ofList (trimEndZeros (padZeros 3 (toString (n % 1000))).toList)

/-- `OptionContract.from_occ`, up to the constructor. -/
def parseOcc (occ : Option String) : Except OptionError ParsedOcc :=
  match occ.filter (· ≠ "") with
  | none => .error (.value "OCC symbol must be a non-empty string")
  | some occ =>
    let chars := (strip occ).toList
    match matchOcc chars with
    | none => .error (.value s!"Invalid OCC option symbol format: '{occ}'")
    | some (rootLen, i) =>
      let exp := (chars.drop i).take 6
      let expText := String.ofList exp
      match strptimeYmd exp with
      | .error err => .error (.value s!"Invalid expiration date '{expText}' in OCC symbol: {err}")
      | .ok (year, month, day) =>
        let n := digitsNumber (chars.drop (i + 7))
        if n = 0 then .error (.value "Strike parsed from OCC symbol must be positive, got 0")
        else .ok ⟨upper (String.ofList (chars.take rootLen)), year, month, day,
          rightOf ((chars.drop (i + 6)).headD ' '), thousandths n⟩

/-- `Decimal(text)` for digits with at most one point. -/
def DecWire.ofText (text : String) : DecWire :=
  let p := (splitOnce '.' text.toList).getD (text.toList, [])
  ⟨false, digitsNumber (p.1 ++ p.2), -(p.2.length : Int), .finite, text⟩

end TradeEngine
