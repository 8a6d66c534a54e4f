import Mathlib.Tactic
import Mathlib.Data.Nat.Log

/-!
# Money

A decimal held in its one canonical form, with checked arithmetic: every operation computes the
exact result, rounds it to 28 significant digits half-even, and then refuses what a 96-bit mantissa
and a scale of at most 28 cannot hold.
-/

namespace TradeEngine

/-- Significant digits an arithmetic result keeps. -/
def prec : Nat := 28

def maxScale : Nat := 28

def mantissaLimit : Nat := 2 ^ 96

inductive DecErr where
  | invalidOperation
  | divisionByZero
  | overflow
  | unsupported (what : String)
deriving DecidableEq, Repr

abbrev DecResult (α : Type) := Except DecErr α

inductive Round where
  | halfEven
  | floor
deriving DecidableEq, Repr

/-- `m / 10^s` with the trailing zeros gone: `0` has scale zero, and a scaled mantissa ends in a
non-zero digit. -/
structure Money where
  mantissa : Int
  scale : Nat
  mantissa_lt : mantissa.natAbs < mantissaLimit
  scale_le : scale ≤ maxScale
  canonical : scale = 0 ∨ mantissa % 10 ≠ 0
deriving DecidableEq

namespace Money

def zero : Money := ⟨0, 0, by decide, by decide, Or.inl rfl⟩

def one : Money := ⟨1, 0, by decide, by decide, Or.inl rfl⟩

def minusOne : Money := ⟨-1, 0, by decide, by decide, Or.inl rfl⟩

/-- `0.01`. -/
def cent : Money := ⟨1, 2, by decide, by decide, by decide⟩

/-- A whole amount, where the mantissa holds it. -/
def ofNat (n : Nat) : Money := if h : n < mantissaLimit then ⟨n, 0, h, by decide, Or.inl rfl⟩ else zero

instance : Inhabited Money := ⟨zero⟩

theorem mantissa_pos {a : Money} (h : ¬ a.mantissa ≤ 0) : 0 < a.mantissa := not_le.mp h

/-- The number a `Money` stands for. -/
def val (a : Money) : ℚ := a.mantissa / 10 ^ a.scale

/-! ## Digits and rounding -/

/-- A `u128` product, or `none` past the width. -/
def checkedMul (a b : Nat) : Option Nat := if a * b < 2 ^ 128 then some (a * b) else none

def checkedAdd (a b : Nat) : Option Nat := if a + b < 2 ^ 128 then some (a + b) else none

/-- `POW10.get(i)`: the table holds `10^0` to `10^38`. -/
def pow10 (i : Nat) : Option Nat := if i < 39 then some (10 ^ i) else none

def digits (n : Nat) : Nat := if n = 0 then 1 else Nat.log 10 n + 1

/-- Whether a quotient `q` with remainder `r` by `d` rounds away from zero. -/
def roundsUp (q r d : Nat) (neg : Bool) : Round → Bool
  | .halfEven => match compare (r * 2) d with
    | .gt => true
    | .eq => q % 2 == 1
    | .lt => false
  | .floor => neg && r != 0

def shiftRoundBig (c drop : Nat) (neg : Bool) (mode : Round) : Nat :=
  let d := 10 ^ drop
  let q := c / d
  let r := c - q * d
  if roundsUp q r d neg mode then q + 1 else q

/-- Past the power table the quotient is nothing, whatever the coefficient. -/
def shiftRoundU128 (c drop : Nat) (neg : Bool) (mode : Round) : Nat :=
  if drop > 38 then
    match mode with
    | .halfEven => 0
    | .floor => if neg && c != 0 then 1 else 0
  else
    let d := 10 ^ drop
    let q := c / d
    let r := c % d
    let up := match mode with
      | .halfEven => match (checkedMul r 2).map (fun t => compare t d) with
        | some .gt => true
        | none => true
        | some .eq => q % 2 == 1
        | some .lt => false
      | .floor => neg && r != 0
    q + (if up then 1 else 0)

/-- The loop of `build`: drop trailing zeros of a coefficient into its exponent. The first argument
bounds the number of turns. -/
def stripZeros : Nat → Nat → Int → Nat × Int
  | 0, c, e => (c, e)
  | n + 1, c, e => if c % 10 = 0 then stripZeros n (c / 10) (e + 1) else (c, e)

theorem stripZeros_fst_mod {n c : Nat} (e : Int) (hc : c ≠ 0) (hn : c < 10 ^ n) :
    (stripZeros n c e).1 % 10 ≠ 0 := by
  induction n generalizing c e with
  | zero => simp at hn; omega
  | succ n ih =>
      unfold stripZeros
      split
      · exact ih (e + 1) (by omega) (by rw [pow_succ] at hn; omega)
      · assumption

/-- Both of a coefficient and its exponent with the trailing zeros dropped. -/
def strip (c : Nat) (e : Int) : Nat × Int := stripZeros (Nat.log2 c + 1) c e

theorem strip_fst_mod {c : Nat} (e : Int) (hc : c ≠ 0) : (strip c e).1 % 10 ≠ 0 := by
  refine stripZeros_fst_mod e hc ?_
  calc c < 2 ^ (Nat.log2 c + 1) := Nat.lt_log2_self
    _ ≤ 10 ^ (Nat.log2 c + 1) := Nat.pow_le_pow_left (by omega) _

def signed (neg : Bool) (c : Nat) : Int := if neg then -(c : Int) else c

theorem signed_natAbs (neg : Bool) (c : Nat) : (signed neg c).natAbs = c := by
  cases neg <;> simp [signed]

theorem signed_mod_ten (neg : Bool) {c : Nat} (h : c % 10 ≠ 0) : signed neg c % 10 ≠ 0 := by
  cases neg <;> simp only [signed, if_true, Bool.false_eq_true, if_false] <;> omega

/-- An exact value, or a refusal outside the bound; nothing is rounded. -/
def build (neg : Bool) (coef : Nat) (exp : Int) : DecResult Money :=
  if hz : coef = 0 then .ok zero
  else
    let se := strip coef exp
    if se.2 > 0 then
      if se.2 > 38 then .error .overflow
      else match checkedMul se.1 (10 ^ se.2.toNat) with
        | none => .error .overflow
        | some c =>
          if hb : c < mantissaLimit then
            .ok ⟨signed neg c, 0, by rw [signed_natAbs]; exact hb, by decide, Or.inl rfl⟩
          else .error .overflow
    else if hb : (-se.2).toNat ≤ maxScale ∧ se.1 < mantissaLimit then
      .ok ⟨signed neg se.1, (-se.2).toNat, by rw [signed_natAbs]; exact hb.2, hb.1,
        Or.inr (signed_mod_ten neg (strip_fst_mod exp hz))⟩
    else .error .overflow

def buildBig (neg : Bool) (coef : Nat) (exp : Int) : DecResult Money :=
  if coef = 0 then .ok zero
  else
    let se := strip coef exp
    if se.1 < 2 ^ 128 then build neg se.1 se.2 else .error .overflow

/-- Round a coefficient of over 28 digits to 28, half-even. -/
def toPrec (shift : Nat → Nat → Bool → Round → Nat) (neg : Bool) (coef : Nat) (exp : Int) :
    Nat × Int :=
  let n := digits coef
  if n > prec then
    let r := shift coef (n - prec) neg .halfEven
    let e := exp + (n - prec : Nat)
    if digits r > prec then (r / 10, e + 1) else (r, e)
  else (coef, exp)

/-- Round a result finer than the bound's scale to that scale; one that would vanish is refused. -/
def toScale (neg : Bool) (coef : Nat) (exp : Int) : DecResult (Nat × Int) :=
  if exp < -(maxScale : Int) then
    let r := shiftRoundU128 coef (-(maxScale : Int) - exp).toNat neg .halfEven
    if r = 0 then .error .overflow else .ok (r, -(maxScale : Int))
  else .ok (coef, exp)

def finishU128 (neg : Bool) (coef : Nat) (exp : Int) : DecResult Money :=
  if coef = 0 then .ok zero
  else do
    let ce := toPrec shiftRoundU128 neg coef exp
    let ce ← toScale neg ce.1 ce.2
    build neg ce.1 ce.2

def finishBig (neg : Bool) (coef : Nat) (exp : Int) : DecResult Money :=
  if coef = 0 then .ok zero
  else
    let ce := toPrec shiftRoundBig neg coef exp
    finishU128 neg ce.1 ce.2

/-! ## Parts and integers -/

def isNegative (a : Money) : Bool := a.mantissa < 0

def coefficient (a : Money) : Nat := a.mantissa.natAbs

def exponent (a : Money) : Int := -(a.scale : Int)

def isZero (a : Money) : Bool := a.mantissa == 0

/-- An integer, or a refusal beyond the bound. -/
def fromI128 (n : Int) : DecResult Money := build (n < 0) n.natAbs 0

/-! ## Arithmetic -/

def addBig (a b : Money) (negateB : Bool) : DecResult Money :=
  let nb := xor b.isNegative (negateB && b.coefficient != 0)
  let e := min a.exponent b.exponent
  let x := a.coefficient * 10 ^ (a.exponent - e).toNat
  let y := b.coefficient * 10 ^ (b.exponent - e).toNat
  if a.isNegative = nb then finishBig a.isNegative (x + y) e
  else match compare x y with
    | .eq => finishBig false 0 e
    | .gt => finishBig a.isNegative (x - y) e
    | .lt => finishBig nb (y - x) e

/-- Addition in 128 bits where both operands and the sum fit, in big integers otherwise. -/
def addSigned (a b : Money) (negateB : Bool) : DecResult Money :=
  let nb := xor b.isNegative (negateB && b.coefficient != 0)
  let e := min a.exponent b.exponent
  let x := (pow10 (a.exponent - e).toNat).bind (checkedMul a.coefficient)
  let y := (pow10 (b.exponent - e).toNat).bind (checkedMul b.coefficient)
  match x, y with
  | some x, some y =>
    if a.isNegative = nb then
      match checkedAdd x y with
      | some sum => finishU128 (a.isNegative && sum != 0) sum e
      | none => addBig a b negateB
    else if x ≥ y then finishU128 (a.isNegative && x - y != 0) (x - y) e
    else finishU128 (nb && y - x != 0) (y - x) e
  | _, _ => addBig a b negateB

def add (a b : Money) : DecResult Money := addSigned a b false

def sub (a b : Money) : DecResult Money := addSigned a b true

/-- `-x`, rounded to the context: a 29-digit value loses its last digit. -/
def neg (a : Money) : DecResult Money :=
  finishU128 (!a.isNegative && a.coefficient != 0) a.coefficient a.exponent

def abs (a : Money) : DecResult Money := finishU128 false a.coefficient a.exponent

def mul (a b : Money) : DecResult Money :=
  let sign := a.isNegative != b.isNegative
  match checkedMul a.coefficient b.coefficient with
  | some p => finishU128 sign p (a.exponent + b.exponent)
  | none => finishBig sign (a.coefficient * b.coefficient) (a.exponent + b.exponent)

/-- A quotient in 128 bits, and whether digits were cut. -/
def quotU128 (num den : Nat) : Nat × Bool := (num / den, num % den != 0)

/-- The same in big integers. -/
def quotBig (num den : Nat) : Nat × Bool :=
  let q := num / den
  (q, num - q * den != 0)

/-- The quotient of two coefficients shifted to 29 digits: in 128 bits where the shifted numerator fits. -/
def divCoef (ma mb : Nat) (shift : Int) : Nat × Bool :=
  if shift ≥ 0 then
    match (pow10 shift.toNat).bind (checkedMul ma) with
    | some num => quotU128 num mb
    | none => quotBig (ma * 10 ^ shift.toNat) mb
  else quotBig ma (mb * 10 ^ (-shift).toNat)

/-- A quotient correctly rounded to 28 significant digits half-even. -/
def div (a b : Money) : DecResult Money :=
  if b.coefficient = 0 then
    .error (if a.coefficient = 0 then .invalidOperation else .divisionByZero)
  else if a.coefficient = 0 then .ok zero
  else
    let shift : Int := digits b.coefficient - digits a.coefficient + prec + 1
    let q := divCoef a.coefficient b.coefficient shift
    -- the sticky digit: a tie is never a tie when digits were cut
    let coef := if q.2 && q.1 % 5 == 0 then q.1 + 1 else q.1
    finishBig (a.isNegative != b.isNegative) coef (a.exponent - b.exponent - shift)

/-! ## Comparison, by value -/

def cmpOrd (a b : Money) : Ordering :=
  compare (a.mantissa * 10 ^ b.scale) (b.mantissa * 10 ^ a.scale)

def eqNum (a b : Money) : Bool := cmpOrd a b == .eq

def lt (a b : Money) : Bool := cmpOrd a b == .lt

def gt (a b : Money) : Bool := cmpOrd a b == .gt

def le (a b : Money) : Bool := cmpOrd a b != .gt

def ge (a b : Money) : Bool := cmpOrd a b != .lt

def ne (a b : Money) : Bool := !eqNum a b

/-! ## Integers -/

def toIntegral (a : Money) (mode : Round) : DecResult Money :=
  if a.exponent ≥ 0 then .ok a
  else build a.isNegative (shiftRoundU128 a.coefficient a.scale a.isNegative mode) 0

def isIntegral (a : Money) : Bool := a.scale == 0

/-- Truncation toward zero. -/
def truncI128 (a : Money) : DecResult Int :=
  let mag := if a.exponent ≥ 0 then a.coefficient else a.coefficient / 10 ^ (min a.scale 38)
  if mag < 2 ^ 127 then .ok (signed a.isNegative mag)
  else .error (.unsupported "int() beyond i128")

/-! ## Spelling -/

/-- The canonical text: plain digits, a point only where the scale asks for one. -/
def canon (a : Money) : String :=
  let ds := Nat.toDigits 10 a.coefficient
  let body :=
    if a.scale = 0 then ds
    else if ds.length > a.scale then
      ds.take (ds.length - a.scale) ++ '.' :: ds.drop (ds.length - a.scale)
    else ['0', '.'] ++ List.replicate (a.scale - ds.length) '0' ++ ds
  String.ofList (if a.isNegative then '-' :: body else body)

end Money

end TradeEngine
