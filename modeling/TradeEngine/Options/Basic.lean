import TradeEngine.Money.Arith
import TradeEngine.Ledger.Time

/-!
# Option rules

Contract validation, OCC symbology and the option-roots table. Text refusals quote the value the
way it is spelt.
-/

namespace TradeEngine

inductive OptionError where
  | value (msg : String)
  | unresolvable (msg : String)
  | invalidOperation
  | overflow
deriving DecidableEq, Repr

/-! ## Text -/

def isSpace (c : Char) : Bool :=
  let n := c.toNat
  (9 ≤ n && n ≤ 13) || (0x1c ≤ n && n ≤ 0x1f) || n == 0x20 || n == 0x85 || n == 0xa0 ||
    n == 0x1680 || (0x2000 ≤ n && n ≤ 0x200a) || n == 0x2028 || n == 0x2029 || n == 0x202f ||
    n == 0x205f || n == 0x3000

/-- `str.strip()` with no argument. -/
def strip (s : String) : String :=
  String.ofList (((s.toList.dropWhile isSpace).reverse.dropWhile isSpace).reverse)

/-- Upper case of the ASCII letters of a text. Letters beyond ASCII are left as they are, also the few whose upper case
is ASCII (ß, ı, ſ and the ligatures), where the source's is Unicode's. -/
def upper (s : String) : String := String.ofList (s.toList.map Char.toUpper)

/-- First code point of every run of ten Unicode decimal digits, ascending. -/
def ndStarts : List Nat :=
  [0x30, 0x660, 0x6F0, 0x7C0, 0x966, 0x9E6, 0xA66, 0xAE6, 0xB66, 0xBE6, 0xC66, 0xCE6, 0xD66, 0xDE6,
    0xE50, 0xED0, 0xF20, 0x1040, 0x1090, 0x17E0, 0x1810, 0x1946, 0x19D0, 0x1A80, 0x1A90, 0x1B50,
    0x1BB0, 0x1C40, 0x1C50, 0xA620, 0xA8D0, 0xA900, 0xA9D0, 0xA9F0, 0xAA50, 0xABF0, 0xFF10,
    0x104A0, 0x10D30, 0x11066, 0x110F0, 0x11136, 0x111D0, 0x112F0, 0x11450, 0x114D0, 0x11650,
    0x116C0, 0x11730, 0x118E0, 0x11950, 0x11C50, 0x11D50, 0x11DA0, 0x11F50, 0x16A60, 0x16AC0,
    0x16B50, 0x1D7CE, 0x1D7D8, 0x1D7E2, 0x1D7EC, 0x1D7F6, 0x1E140, 0x1E2F0, 0x1E4F0, 0x1E950,
    0x1FBF0]

/-- The decimal value of a Unicode decimal digit. -/
def digit (c : Char) : Option Nat :=
  (ndStarts.filter (· ≤ c.toNat)).getLast?.bind fun start =>
    if c.toNat - start < 10 then some (c.toNat - start) else none

/-- `str.isdigit()` over the decimal digits. -/
def pyIsDigit (s : String) : Bool := s ≠ "" && s.toList.all fun c => (digit c).isSome

/-! ## Strikes -/

/-- `strike * 1000` under the 28-digit context. A strike of more than 28 significant digits is
rounded here. The context's exponent limits are out of reach of a scale of at most 28. -/
def times1000 (strike : Money) : Nat × Int :=
  if strike.isZero then (0, strike.exponent)
  else
    let c := strike.coefficient * 1000
    let expMin := (Money.digits c : Int) + strike.exponent - prec
    if strike.exponent < expMin then
      let r := Money.shiftRoundBig c (expMin - strike.exponent).toNat false .halfEven
      if Money.digits r > prec then (r / 10, expMin + 1) else (r, expMin)
    else (c, strike.exponent)

def integralValue (c : Nat) (exp : Int) : Nat :=
  if exp ≥ 0 then c * 10 ^ (min exp 40).toNat
  else Money.shiftRoundBig c (-exp).toNat false .halfEven

/-- The strike in thousandths, refused outside `1 ..= 99999999`. -/
def strikeMillis (strike : Money) : Except OptionError Nat :=
  let ce := times1000 strike
  let millis := integralValue ce.1 ce.2
  if millis = 0 ∨ millis > 99999999 then
    .error (.value s!"Strike {strike.canon} out of bounds for OCC representation")
  else .ok millis

def validateStrike (strike : Money) : Except OptionError Unit := do
  if strike.isNegative || strike.isZero then
    throw (.value s!"Strike must be positive and finite, got {strike.canon}")
  let ce := times1000 strike
  unless ce.2 ≥ 0 || ce.1 % 10 ^ (-ce.2).toNat == 0 do
    throw (.value
      s!"Strike cannot have more than 3 decimal places (thousandths), got {strike.canon} (I5)")
  let _ ← strikeMillis strike

/-! ## Symbols -/

def isUpper (c : Char) : Bool := 'A' ≤ c && c ≤ 'Z'

def isAlnum (c : Char) : Bool := isUpper c || ('0' ≤ c && c ≤ '9')

/-- A root, then optionally one dot and a class of one or two letters. -/
def symbolShape (cs : List Char) : Bool :=
  let root := cs.takeWhile (· != '.')
  match cs.drop root.length with
  | [] => cs.all isAlnum
  | _ :: cls => !root.isEmpty && root.all isAlnum && 1 ≤ cls.length && cls.length ≤ 2 && cls.all isUpper

/-- The normalised symbol of an equity. -/
def equitySymbol (raw : String) : Except OptionError String := do
  if raw = "" then throw (.value "Equity symbol must be non-empty string")
  let sym := upper (strip raw)
  if sym = "" then throw (.value "Equity symbol must be non-empty")
  if sym.length > 10 then
    throw (.value s!"Equity symbol exceeds maximum length of 10 characters: '{sym}'")
  unless symbolShape sym.toList do
    throw (.value s!"Equity symbol must be alphanumeric without slashes or spaces, got '{sym}'")
  pure sym

/-- The normalised root of an option. -/
def validateUnderlying (underlying : String) : Except OptionError String := do
  let und := upper (strip underlying)
  if und = "" then throw (.value "Option underlying must be non-empty")
  if und.length > 6 then
    throw (.value
      s!"Option underlying must be at most 6 characters, got '{und}' (length {und.length})")
  unless und.toList.all isAlnum do
    throw (.value s!"Option underlying must be alphanumeric, got '{und}'")
  pure und

/-! ## Contracts -/

inductive Right where
  | call
  | put
deriving DecidableEq, Repr

def Right.code : Right → String
  | .call => "C"
  | .put => "P"

/-- A contract the constructor accepted: a normalised root, a strike OCC can spell, a positive
multiplier. -/
structure OptionContract where
  underlying : String
  expiry : NaiveDate
  strike : Money
  right : Right
  multiplier : Int
  underlying_ok : validateUnderlying underlying = .ok underlying
  strike_ok : validateStrike strike = .ok ()
  multiplier_pos : 0 < multiplier
deriving DecidableEq

/-- The 21-character OCC symbol. -/
def OptionContract.occ (c : OptionContract) : Except OptionError String := do
  let millis ← strikeMillis c.strike
  pure (c.underlying ++ String.ofList (List.replicate (6 - c.underlying.length) ' ') ++
    padZeros 2 (toString (c.expiry.year % 100)) ++ padZeros 2 (toString c.expiry.month) ++
    padZeros 2 (toString c.expiry.day) ++ c.right.code ++ padZeros 8 (toString millis))

/-! ## The option-roots table -/

inductive Exercise where
  | american
  | european
deriving DecidableEq, Repr

inductive Settlement where
  | physical
  | cash
deriving DecidableEq, Repr

structure Style where
  root : String
  underlying : String
  exercise : Exercise
  settlement : Settlement
deriving DecidableEq, Repr

/-- Index roots with their underlying; European and cash settled. -/
def indexRoots : List (String × String) := [("SPX", "SPX"), ("SPXW", "SPX")]

def unmodelledIndexRoots : List String :=
  ["NDX", "NDXP", "RUT", "RUTW", "MRUT", "XSP", "XND", "DJX", "OEX", "XEO", "VIX", "VIXW"]

/-- The style of options listed under a root; an unmodelled index root refuses. -/
def optionStyle (root : String) : Except OptionError Style :=
  let key := upper (strip root)
  match indexRoots.find? (·.1 == key) with
  | some (r, u) => .ok ⟨r, u, .european, .cash⟩
  | none =>
    if unmodelledIndexRoots.contains key then
      .error (.unresolvable s!"Index option root '{key}' is not modelled yet (I5)")
    else if key = "" then .error (.unresolvable "Empty option root (I6)")
    else .ok ⟨key, key, .american, .physical⟩

/-! ## What an option becomes -/

/-- The exercise-by-exception threshold, `0.01`. -/
def exerciseThreshold : Money := .cent

/-- A decimal refusal as the option rules raise it. -/
def optionDecErr : DecErr → OptionError
  | .invalidOperation => .invalidOperation
  | _ => .overflow

variable (A : Arith)

/-- Per-share intrinsic value at a price; never negative. -/
def intrinsic (c : OptionContract) (price : Money) : Except OptionError Money :=
  if price.le .zero then
    .error (.value s!"Underlying price must be positive, got {price.canon} (I5)")
  else do
    let raw ← ((if c.right = .call then A.decSub price c.strike
      else A.decSub c.strike price).mapError optionDecErr)
    pure (if Money.zero.gt raw then .zero else raw)

def isCashSettled (c : OptionContract) : Except OptionError Bool := do
  pure ((← optionStyle c.underlying).settlement == .cash)

def canExerciseEarly (c : OptionContract) : Except OptionError Bool := do
  pure ((← optionStyle c.underlying).exercise == .american)

/-- The deliverable's equity symbol; a cash-settled contract refuses. -/
def deliverable (c : OptionContract) : Except OptionError String := do
  let style ← optionStyle c.underlying
  if style.settlement = .cash then do
    let occ ← c.occ
    .error (.value s!"{occ} settles in cash; it delivers no shares")
  else equitySymbol style.underlying

/-- The share trade one exercised or assigned lot makes: whether it buys, and the per-share
price. -/
def delivery (c : OptionContract) (heldBuy : Bool) (premium : Money) :
    Except OptionError (Bool × Money) :=
  if premium.lt .zero then
    .error (.value s!"Premium must not be negative, got {premium.canon}")
  else
    let buys := (c.right == .call) == heldBuy
    if c.right = .call then do
      let price ← (A.decAdd c.strike premium).mapError optionDecErr
      pure (buys, price)
    else do
      let price ← (A.decSub c.strike premium).mapError optionDecErr
      if price.le .zero then do
        let occ ← c.occ
        .error (.value s!"{occ}: premium {premium.canon} is not below the strike (I5)")
      else pure (buys, price)

end TradeEngine
