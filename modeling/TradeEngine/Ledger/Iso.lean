import TradeEngine.Ledger.Model
import TradeEngine.Lib.Str

/-!
# Reading dates and datetimes

`date.fromisoformat` and `datetime.fromisoformat`: the extended and the basic forms, at fixed positions.
-/

namespace TradeEngine

open Lib

/-- A text in quotes, as `{:?}` writes it: controls escaped, printable characters as they are. -/
def debugText (s : List Char) : String :=
  let escaped (c : Char) : String :=
    if c = '\t' then "\\t" else if c = '\r' then "\\r" else if c = '\n' then "\\n" else if c = '\\' then "\\\\"
    else if c = '"' then "\\\"" else if c.toNat = 0 then "\\0"
    else if c.toNat < 32 ∨ c.toNat = 127 then "\\u\x7b" ++ String.ofList (Nat.toDigits 16 c.toNat) ++ "\x7d"
    else String.ofList [c]
  "\"" ++ String.join (s.map escaped) ++ "\""

def asciiDigits (l : List Char) : Bool := !l.isEmpty && l.all Char.isDigit

/-- The number digits spell; every text it is asked for has at most six of them. -/
def num (l : List Char) : Nat := if asciiDigits l then Nat.ofDigitChars 10 l 0 else 0

def badIso {α : Type} (s : List Char) : R α := err .value ("Invalid isoformat string: " ++ debugText s)

def makeDate (y m d : Nat) : R NaiveDate :=
  if y = 0 then err .value "year 0 is out of range"
  else if hm : 1 ≤ m ∧ m ≤ 12 then
    if hd : 1 ≤ d ∧ d ≤ daysInMonth y m then .ok ⟨y, m, d, hm, hd⟩
    else err .value "day is out of range for month"
  else err .value "month must be in 1..12"

/-- The parts of an ISO date the text starts with, and the rest: `YYYY-MM-DD` or `YYYYMMDD`. -/
def datePrefix (s : List Char) : Option (Nat × Nat × Nat × List Char) :=
  if 10 ≤ s.length ∧ s[4]? = some '-' ∧ s[7]? = some '-' ∧ asciiDigits (s.take 4) ∧ asciiDigits ((s.drop 5).take 2) ∧
      asciiDigits ((s.drop 8).take 2) then
    some (num (s.take 4), num ((s.drop 5).take 2), num ((s.drop 8).take 2), s.drop 10)
  else if 8 ≤ s.length ∧ asciiDigits (s.take 8) then
    some (num (s.take 4), num ((s.drop 4).take 2), num ((s.drop 6).take 2), s.drop 8)
  else none

/-- The pieces of a clock text: between colons, or two by two. -/
def clockParts (main : List Char) : Option (List (List Char)) :=
  if main.contains ':' then some (main.splitOn ':')
  else match main.length with
    | 2 => some [main]
    | 4 => some [main.take 2, main.drop 2]
    | 6 => some [main.take 2, (main.drop 2).take 2, main.drop 4]
    | _ => none

/-- One to three pieces of two digits. -/
def clockShape (parts : List (List Char)) : Bool :=
  !parts.isEmpty && parts.length ≤ 3 && parts.all fun p => p.length == 2 && asciiDigits p

def clockPart (parts : List (List Char)) (i : Nat) : Nat := (parts[i]?).elim 0 num

/-- The microseconds of a fraction: its first six digits, filled with zeros. -/
def micros (frac : List Char) : Option Nat :=
  if asciiDigits frac then
    let six := frac.take 6
    some (num (six ++ List.replicate (6 - six.length) '0'))
  else none

/-- The time of day of checked pieces. -/
def timeOf (parts : List (List Char)) (us : Nat) : R (Nat × Nat) :=
  let h := clockPart parts 0
  let mi := clockPart parts 1
  let se := clockPart parts 2
  if h > 23 then err .value "hour must be in 0..23"
  else if mi > 59 then err .value "minute must be in 0..59"
  else if se > 59 then err .value "second must be in 0..59"
  else .ok (h * 3600 + mi * 60 + se, us)

/-- What stands before the first point or comma, and what after it. -/
def splitFrac (t : List Char) : List Char × Option (List Char) :=
  let main := t.takeWhile fun c => c != '.' && c != ','
  (main, (t.drop main.length).tail?)

/-- `HH[:MM[:SS[.f]]]` or `HH[MM[SS[.f]]]`: seconds of the day and microseconds. -/
def parseTime (t : List Char) : Option (R (Nat × Nat)) :=
  let (main, frac) := splitFrac t
  (clockParts main).bind fun parts =>
    if !clockShape parts ∨ (frac.isSome ∧ parts.length ≠ 3) then none
    else (frac.elim (some 0) micros).map (timeOf parts)

/-- The offset of checked pieces. -/
def offsetOf (neg : Bool) (parts : List (List Char)) : R Int :=
  let mi := clockPart parts 1
  let se := clockPart parts 2
  let a := clockPart parts 0 * 3600 + mi * 60 + se
  if mi > 59 ∨ se > 59 then err .value "minute must be in 0..59"
  else if 86400 ≤ a then
    err .value "offset must be a timedelta strictly between -timedelta(hours=24) and timedelta(hours=24)"
  else .ok (if neg then -(a : Int) else a)

/-- `±HH[:MM[:SS]]` or `±HH[MM[SS]]`, in seconds. -/
def parseOffset (z : List Char) : Option (R Int) :=
  let body := z.drop 1
  if body.contains '.' then some (err .unsupported "a sub-second UTC offset")
  else (clockParts body).bind fun parts =>
    if clockShape parts then some (offsetOf (z.head? = some '-') parts) else none

/-- The time and the offset that follows it: from the first sign, or a final `Z`. -/
def splitZone (time : List Char) : List Char × Option (List Char) :=
  let clock := time.takeWhile fun c => c != '+' && c != '-'
  if clock.length < time.length then (clock, some (time.drop clock.length))
  else if time.getLast? = some 'Z' then (time.dropLast, some ['Z'])
  else (time, none)

/-- Without the blanks at its end. -/
def trimEndSpaces (l : List Char) : List Char := (l.reverse.dropWhile (· == ' ')).reverse

/-- The offset and whether there was one; `s` is the whole text. -/
def parseZone (s : List Char) : Option (List Char) → R (Int × Bool)
  | none => .ok (0, false)
  | some z => if z = ['Z'] then .ok (0, true) else ((parseOffset z).elim (badIso s) id).map fun off => (off, true)

/-- The time of day and the offset after a date. -/
def parseClock (s : List Char) (date : NaiveDate) (time : List Char) : R (DateTime × Bool) := do
  let tod ← (parseTime (trimEndSpaces (splitZone time).1)).elim (badIso s) id
  let zone ← parseZone s (splitZone time).2
  pure (⟨date, tod.1, tod.2, zone.1⟩, zone.2)

/-- The datetime of an ISO text and whether it carried an offset. -/
def parseDatetime (text : String) : R (DateTime × Bool) :=
  let s := text.toList
  if s.any fun c => 128 ≤ c.toNat then badIso s
  else if s.contains 'W' then err .unsupported "ISO week dates"
  else match datePrefix s with
    | none => badIso s
    | some (y, mo, d, rest) => do
      let date ← makeDate y mo d
      match rest with
      | [] => pure (⟨date, 0, 0, 0⟩, false)
      | _ :: time => if time = [] then badIso s else parseClock s date time

end TradeEngine
