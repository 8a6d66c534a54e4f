import Mathlib.Tactic

/-!
# Dates and instants

Calendar dates and aware datetimes with the texts the ledger stores them under. Two datetimes are
one when they name one instant, whatever their offsets.
-/

namespace TradeEngine

/-- Pad a number's text with zeros after its sign, as `{:0w}` does. -/
def padZeros (w : Nat) (s : String) : String :=
  let zeros := List.replicate (w - s.length) '0'
  String.ofList (if s.toList.head? = some '-' then '-' :: (zeros ++ s.toList.tail) else zeros ++ s.toList)

theorem padZeros_toList_of_unsigned {s : String} (h : s.toList.head? ≠ some '-') (w : Nat) :
    (padZeros w s).toList = List.replicate (w - s.length) '0' ++ s.toList := by
  rw [padZeros, if_neg h, String.toList_ofList]

def daysInMonth (year : Int) (month : Nat) : Nat :=
  if month = 4 ∨ month = 6 ∨ month = 9 ∨ month = 11 then 30
  else if month = 2 then
    if year % 4 = 0 ∧ (year % 100 ≠ 0 ∨ year % 400 = 0) then 29 else 28
  else 31

/-- A date of the proleptic Gregorian calendar. -/
structure NaiveDate where
  year : Int
  month : Nat
  day : Nat
  month_mem : 1 ≤ month ∧ month ≤ 12
  day_mem : 1 ≤ day ∧ day ≤ daysInMonth year month
deriving DecidableEq

/-- `date_iso`. -/
def NaiveDate.iso (d : NaiveDate) : String :=
  padZeros 4 (toString d.year) ++ "-" ++ padZeros 2 (toString d.month) ++ "-" ++
    padZeros 2 (toString d.day)

/-- Days since 0000-12-31. -/
def NaiveDate.numDaysFromCe (d : NaiveDate) : Int :=
  let p := d.year - 1
  let before := ((List.range (d.month - 1)).map fun i => daysInMonth d.year (i + 1)).sum
  p * 365 + p / 4 - p / 100 + p / 400 + before + d.day

theorem daysInMonth_pos (year : Int) (month : Nat) : 1 ≤ daysInMonth year month := by
  unfold daysInMonth
  split
  · decide
  · split
    · split <;> decide
    · decide

namespace NaiveDate

/-- A date by its parts; the first of January where there is no such day. -/
def ymd (year : Int) (month day : Nat) : NaiveDate :=
  if h : (1 ≤ month ∧ month ≤ 12) ∧ 1 ≤ day ∧ day ≤ daysInMonth year month then ⟨year, month, day, h.1, h.2⟩
  else ⟨year, 1, 1, ⟨le_rfl, by decide⟩, ⟨le_rfl, daysInMonth_pos year 1⟩⟩

def next (d : NaiveDate) : NaiveDate :=
  if h : d.day < daysInMonth d.year d.month then
    ⟨d.year, d.month, d.day + 1, d.month_mem, ⟨Nat.succ_pos _, h⟩⟩
  else if h : d.month < 12 then
    ⟨d.year, d.month + 1, 1, ⟨Nat.succ_pos _, h⟩, le_rfl, daysInMonth_pos _ _⟩
  else ⟨d.year + 1, 1, 1, by decide, le_rfl, daysInMonth_pos _ _⟩

def previous (d : NaiveDate) : NaiveDate :=
  if h : 1 < d.day then
    ⟨d.year, d.month, d.day - 1, d.month_mem, Nat.le_pred_of_lt h, (Nat.pred_le _).trans d.day_mem.2⟩
  else if h : 1 < d.month then
    ⟨d.year, d.month - 1, daysInMonth d.year (d.month - 1),
      ⟨Nat.le_pred_of_lt h, (Nat.pred_le _).trans d.month_mem.2⟩, daysInMonth_pos _ _, le_rfl⟩
  else ⟨d.year - 1, 12, daysInMonth (d.year - 1) 12, by decide, daysInMonth_pos _ _, le_rfl⟩

/-- The date `n` days later, or earlier for a negative `n`. -/
def shift (d : NaiveDate) (n : Int) : NaiveDate :=
  if 0 ≤ n then NaiveDate.next^[n.natAbs] d else NaiveDate.previous^[n.natAbs] d

end NaiveDate

/-- Local fields plus the offset, in seconds. -/
structure DateTime where
  date : NaiveDate
  sod : Nat
  us : Nat
  off : Int
deriving DecidableEq

namespace DateTime

/-- Seconds since 0001-01-01 UTC, and microseconds. -/
def instant (t : DateTime) : Int × Nat :=
  (t.date.numDaysFromCe * 86400 + t.sod - t.off, t.us)

def same (t u : DateTime) : Bool := t.instant == u.instant

/-- `astimezone(timezone.utc)`; `none` where the year leaves 1 to 9999. -/
def toUtc (t : DateTime) : Option DateTime :=
  let total := t.instant.1
  let date := t.date.shift (total / 86400 - t.date.numDaysFromCe)
  if 1 ≤ date.year ∧ date.year ≤ 9999 then some ⟨date, (total % 86400).toNat, t.us, 0⟩ else none

/-- `isoformat()`. -/
def iso (t : DateTime) : String :=
  let two (n : Nat) := padZeros 2 (toString n)
  let clock := two (t.sod / 3600) ++ ":" ++ two (t.sod % 3600 / 60) ++ ":" ++ two (t.sod % 60)
  let micros := if t.us ≠ 0 then "." ++ padZeros 6 (toString t.us) else ""
  let a := t.off.natAbs
  let zone := two (a / 3600) ++ ":" ++ two (a % 3600 / 60) ++
    (if a % 60 ≠ 0 then ":" ++ two (a % 60) else "")
  t.date.iso ++ "T" ++ clock ++ micros ++ (if t.off < 0 then "-" else "+") ++ zone

end DateTime

end TradeEngine
