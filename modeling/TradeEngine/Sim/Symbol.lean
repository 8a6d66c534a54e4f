import TradeEngine.Ledger.Model
import TradeEngine.Lib.Str
import TradeEngine.Money.Parse

/-!
# Futures symbols

The contract specifications and the parser of symbols. A text is sliced by bytes: `none` where a slice starts or ends
inside a character, which ends the program.
-/

namespace TradeEngine.Sim

open Lib

/-! ## Slices by bytes -/

def byteLen (s : List Char) : Nat := (s.map Char.utf8Size).sum

/-- `&s[..n]`. -/
def sliceTo : List Char → Nat → Option (List Char)
  | _, 0 => some []
  | [], _ + 1 => none
  | c :: s, n + 1 => if c.utf8Size ≤ n + 1 then (sliceTo s (n + 1 - c.utf8Size)).map (c :: ·) else none

/-- `&s[n..]`. -/
def sliceFrom : List Char → Nat → Option (List Char)
  | s, 0 => some s
  | [], _ + 1 => none
  | c :: s, n + 1 => if c.utf8Size ≤ n + 1 then sliceFrom s (n + 1 - c.utf8Size) else none

/-! ## Specifications -/

structure StaticFutureSpec where
  root : String
  tickSizeStr : String
  pointValueStr : String

def futureSpecs : List StaticFutureSpec :=
  [⟨"NQ", "0.25", "20"⟩, ⟨"MNQ", "0.25", "2"⟩, ⟨"ES", "0.25", "50"⟩, ⟨"MES", "0.25", "5"⟩, ⟨"YM", "1.0", "5"⟩,
    ⟨"MYM", "1.0", "0.5"⟩, ⟨"RTY", "0.1", "50"⟩, ⟨"M2K", "0.1", "5"⟩, ⟨"CL", "0.01", "1000"⟩, ⟨"MCL", "0.01", "100"⟩,
    ⟨"GC", "0.1", "100"⟩, ⟨"MGC", "0.1", "10"⟩]

/-- A specification with its decimals read. -/
structure FutureSpec where
  root : String
  tickSize : Money
  pointValue : Money

def asciiUpper (s : List Char) : List Char := s.map Char.toUpper

def specForRoot (root : String) : R FutureSpec :=
  let upper := String.ofList (asciiUpper (trim root.toList))
  match futureSpecs.find? (·.root = upper) with
  | none => err .unsupported s!"Unknown futures root: '{root}'"
  | some s =>
    match Money.parse s.tickSizeStr, Money.parse s.pointValueStr with
    | none, _ => err .value "internal error: invalid tick_size"
    | some _, none => err .value "internal error: invalid point_value"
    | some tick, some point => .ok ⟨s.root, tick, point⟩

/-- The roots, longest first, so that `MNQ` is tried before `NQ`. -/
def candidates : List String := (futureSpecs.map (·.root)).insertionSort fun a b => b.length ≤ a.length

/-! ## Months and years -/

def monthFromCode (code : Char) : Option Nat :=
  (['F', 'G', 'H', 'J', 'K', 'M', 'N', 'Q', 'U', 'V', 'X', 'Z'].idxOf? code.toUpper).map (· + 1)

/-- `ContractMonth::new`. -/
def newContractMonth (year : Int) (month : Nat) : R ContractMonth :=
  if hm : 1 ≤ month ∧ month ≤ 12 then
    if hy : 1900 ≤ year ∧ year ≤ 2100 then .ok ⟨year, month, hy, hm⟩
    else err .value s!"Year {year} out of range (1900..=2100)"
  else err .value s!"Month must be 1..=12, got {month}"

/-- The year of one, two or four digits. -/
def contractYear (symbol : String) (ys : List Char) : R Int :=
  let y := Nat.ofDigitChars 10 ys 0
  let text := String.ofList ys
  match ys.length with
  | 1 => .ok (2020 + y)
  | 2 => .ok (pivotYear y)
  | 4 => .ok y
  | _ => err .value s!"Invalid contract year '{text}' in futures symbol '{symbol}': expected 1, 2, or 4 digits"

/-- The month and year after a month code. -/
def monthAndYear (symbol : String) (month : Nat) (ys : List Char) : R ContractMonth :=
  let text := String.ofList ys
  if ys = [] then err .value s!"Missing contract year in futures symbol '{symbol}'"
  else if ys.all Char.isDigit then do newContractMonth (← contractYear symbol ys) month
  else err .value s!"Invalid contract year '{text}' in futures symbol '{symbol}': expected digits"

/-- What follows the root: nothing, or a month code and a year. -/
def contractMonthOf (symbol : String) (remainder : List Char) : Option (R (Option ContractMonth)) :=
  match remainder with
  | [] => some (.ok none)
  | first :: _ =>
    match monthFromCode first with
    | none => some (err .value s!"Invalid contract month code '{first}' in futures symbol '{symbol}'")
    | some month => (sliceFrom remainder first.utf8Size).map fun ys => (monthAndYear symbol month ys).map some

/-! ## Symbols -/

/-- The symbol without its one leading slash. -/
def stripSlash (symbol : String) : List Char → R (List Char)
  | ['/'] => err .value "Futures symbol must not be empty after '/'"
  | '/' :: '/' :: _ => err .value s!"Futures symbol contains multiple leading slashes: '{symbol}'"
  | '/' :: stripped => .ok stripped
  | l => .ok l

/-- The symbol without blanks and its leading slash, in upper case. -/
def bareSymbol (symbol : String) : R (List Char) :=
  let trimmed := trim symbol.toList
  if trimmed = [] then err .value "Futures symbol must be a non-empty string"
  else do
    let bare ← stripSlash symbol trimmed
    if bare.contains '/' || bare.contains ' ' || bare.contains '\t' then
      err .value s!"Futures symbol must not contain slashes or whitespace: '{symbol}'"
    else pure (asciiUpper bare)

def matchRoot (upper : List Char) : Option String := candidates.find? fun c => c.toList.isPrefixOf upper

/-- Where the guess of an unknown root ends: before a month code and digits, counted in characters, or at the end. -/
def guessEnd (upper : List Char) : Nat :=
  let i := upper.length - (upper.reverse.takeWhile Char.isDigit).length
  if 0 < i ∧ i < upper.length ∧ ((upper[i - 1]?).bind monthFromCode).isSome then i - 1 else byteLen upper

def unknownRoot (upper : List Char) : Option (R FutureContract) :=
  let guess := if 0 < guessEnd upper then sliceTo upper (guessEnd upper) else some upper
  guess.map fun g => err .unsupported ("Unknown futures root: '" ++ String.ofList g ++ "'")

/-- The contract of a symbol; `none` where a slice would cut a character. -/
def parseFutureSymbol (symbol : String) : Option (R FutureContract) :=
  match bareSymbol symbol with
  | .error e => some (.error e)
  | .ok upper =>
    match matchRoot upper with
    | none => unknownRoot upper
    | some root => (sliceFrom upper (byteLen root.toList)).bind fun remainder =>
      match specForRoot root with
      | .error e => some (.error e)
      | .ok spec => (contractMonthOf symbol remainder).map fun month => month.map fun m =>
          ⟨root, m, spec.tickSize, spec.pointValue⟩

end TradeEngine.Sim
