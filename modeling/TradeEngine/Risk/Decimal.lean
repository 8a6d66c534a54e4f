import Mathlib.Algebra.Order.Field.Rat
import TradeEngine.Lib.Str
import TradeEngine.Risk.Hours

/-!
# Python-compatible decimal text

What `decimal.Decimal(text)` makes of a string, refused where `rust_decimal` cannot hold the value. Machine
integers are explicit: with overflow checks an operation that does not fit panics, without them it wraps.
-/

namespace TradeEngine.Risk

open Lib

/-- `rust_decimal`: what its decimals stand for, and the constructor that refuses. -/
structure DecimalLib where
  Dec : Type
  num : Dec → ℚ
  tryFromI128WithScale : Int → Nat → Option Dec

inductive Parsed (D : Type) where
  | finite (d : D)
  | nonFinite
  | invalid
deriving DecidableEq

inductive Fault where
  | panic
  | risk (e : RiskError)
deriving DecidableEq

/-! ## Reading the text -/

def stripSign : List Char → Bool × List Char
  | '-' :: r => (true, r)
  | '+' :: r => (false, r)
  | t => (false, t)

/-- Two underscores in a row. -/
def doubled : List Char → Bool
  | a :: b :: l => (a == '_' && b == '_') || doubled (b :: l)
  | _ => false

/-- Single underscores between digits. -/
def digitsOk (s : List Char) : Bool :=
  if s.isEmpty || s.head? == some '_' || s.getLast? == some '_' || doubled s then false
  else s.all fun c => c.isDigit || c == '_'

/-- The `nan` and `inf` forms, in lower case. -/
def isNonFinite (lower : List Char) : Bool :=
  lower == "inf".toList || lower == "infinity".toList ||
    ["snan".toList, "nan".toList].any fun p => p.isPrefixOf lower && (lower.drop p.length).all Char.isDigit

inductive Scan where
  | nonFinite
  | invalid
  | literal (neg : Bool) (int frac : List Char) (exp : Option (Bool × List Char))
deriving DecidableEq

def scanExponent (neg : Bool) (int frac : List Char) : Option (List Char) → Scan
  | none => .literal neg int frac none
  | some e =>
    let (eneg, edigits) := stripSign e
    if digitsOk edigits then .literal neg int frac (some (eneg, edigits)) else .invalid

/-- The parts of a literal, or that it is none. -/
def scan (text : List Char) : Scan :=
  let (neg, body) := stripSign (trim text)
  let lower := body.map Char.toLower
  if isNonFinite lower then .nonFinite
  else
    let (mant, exp) := ((splitOnce 'e' lower).map fun p => (p.1, some p.2)).getD (lower, none)
    let (int, frac) := (splitOnce '.' mant).getD (mant, [])
    if int.isEmpty && frac.isEmpty then .invalid
    else if (!int.isEmpty && !digitsOk int) || (!frac.isEmpty && !digitsOk frac) then .invalid
    else scanExponent neg int frac exp

/-! ## The number -/

/-- The value of the digits of a text, underscores left out. -/
def digitsValue (l : List Char) : Nat := (l.filter (· ≠ '_')).foldl (fun n c => 10 * n + (c.toNat - 48)) 0

/-- A character as Rust's debug format writes it inside a string. -/
def debugChar (c : Char) : List Char :=
  if c = '\t' then ['\\', 't']
  else if c = '\r' then ['\\', 'r']
  else if c = '\n' then ['\\', 'n']
  else if c = '"' then ['\\', '"']
  else if c = '\\' then ['\\', '\\']
  else if c.toNat = 0 then ['\\', '0']
  else if c.toNat < 32 ∨ c.toNat = 127 then
    ['\\', 'u', Char.ofNat 123] ++ Nat.toDigits 16 c.toNat ++ [Char.ofNat 125]
  else [c]

def debugText (text : String) : String :=
  String.ofList ('"' :: text.toList.flatMap debugChar ++ ['"'])

def refuse {α : Type} (what text : String) : Except Fault α := .error (.risk (.value (what ++ ": " ++ debugText text)))

def tooLarge {α : Type} (text : String) : Except Fault α := refuse "decimal too large to represent exactly" text

/-- `2⁶³`, the first integer `i64` lacks. -/
def i64Limit : Int := 9223372036854775808

/-- `2¹²⁷`, the first integer `i128` lacks. -/
def i128Limit : Int := 170141183460469231731687303715884105728

/-- A 64-bit result: itself where it fits, else a panic with overflow checks and wrapped without. -/
def fitI64 (checks : Bool) (x : Int) : Except Fault Int :=
  if -i64Limit ≤ x ∧ x < i64Limit then .ok x
  else if checks then .error .panic
  else .ok (x.bmod 18446744073709551616)

/-- Ten times, checked in 128 bits, `n` times over. -/
def scaleUp (text : String) : Nat → Int → Except Fault Int
  | 0, m => .ok m
  | n + 1, m => if -i128Limit ≤ m * 10 ∧ m * 10 < i128Limit then scaleUp text n (m * 10) else tooLarge text

/-- The exponent, parsed as a 64-bit integer and negated after. -/
def exponentOf (text : String) : Option (Bool × List Char) → Except Fault Int
  | none => .ok 0
  | some (eneg, edigits) =>
    if (digitsValue edigits : Int) < i64Limit then .ok (if eneg then -digitsValue edigits else digitsValue edigits)
    else refuse "decimal exponent out of range" text

/-- The digits as a 128-bit integer. -/
def mantissaOf (text : String) (digits : List Char) : Except Fault Int :=
  if (digitsValue digits : Int) < i128Limit then .ok (digitsValue digits) else tooLarge text

variable (L : DecimalLib) (checks : Bool)

def decimalOf (text : String) (neg : Bool) (mantissa scale : Int) : Except Fault L.Dec := do
  -- zero keeps no more scale than the library can carry
  let scale := if mantissa = 0 then min scale 28 else scale
  if scale > 28 then refuse "decimal has more than 28 fractional digits" text
  else match L.tryFromI128WithScale (if neg then -mantissa else mantissa) scale.toNat with
    | some d => .ok d
    | none => tooLarge text

/-- The count of fraction digits is below `2⁶³`, as the length of every string is. -/
def assemble (text : String) (neg : Bool) (int frac : List Char) (exp : Option (Bool × List Char)) :
    Except Fault L.Dec := do
  let exp10 ← exponentOf text exp
  let mantissa ← mantissaOf text (int ++ frac)
  let scale ← fitI64 checks ((frac.filter (· ≠ '_')).length - exp10)
  if scale < 0 then do
    let times ← fitI64 checks (-scale)
    let mantissa ← scaleUp text times.toNat mantissa
    decimalOf L text neg mantissa 0
  else decimalOf L text neg mantissa scale

def parsePyDecimal (text : String) : Except Fault (Parsed L.Dec) :=
  match scan text.toList with
  | .nonFinite => .ok .nonFinite
  | .invalid => .ok .invalid
  | .literal neg int frac exp => (assemble L checks text neg int frac exp).map .finite

end TradeEngine.Risk
