import Mathlib.Tactic

/-!
# Trading hours of a venue

A recurring local window on some weekdays, cut to the exchange's session. Instants are microseconds
since the epoch; a day is a number of days since the epoch, a time of day a number of microseconds.
-/

namespace TradeEngine.Risk

inductive RiskError where
  | config (msg : String)
  | value (msg : String)
deriving DecidableEq, Repr

abbrev Res := Except RiskError

def cfg {α : Type} (msg : String) : Res α := .error (.config msg)

def val {α : Type} (msg : String) : Res α := .error (.value msg)

/-- A tagged Python value. -/
inductive Tag where
  | null
  | bool (b : Bool)
  | int (i : Int)
  | str (s : String)
  | dec (text : String)
  | other (text type : String)
deriving DecidableEq, Repr

/-! ## Clocks -/

def dayMicros : Int := 86400000000

def dayOf (clock : Int) : Int := clock / dayMicros

def timeOf (clock : Int) : Int := clock % dayMicros

/-- Days after Monday; the epoch was a Thursday. -/
def weekdayOf (day : Int) : Int := (day + 3) % 7

/-- A timezone: what its wall clock shows at an instant. -/
structure Tz where
  clock : Int → Int

/-- What the hours take from outside: the zones by name, the instants that have a date, and the
exchange's sessions by date. -/
structure World where
  zones : String → Option Tz
  hasDate : Int → Bool
  isSession : Int → Except String Bool
  sessionOpen : Int → Except String Int
  sessionClose : Int → Except String Int

/-! ## Configuration -/

/-- A boundary of the window as the document has it. -/
inductive RawTime where
  | micros (n : Int)
  | awareMicros (n : Int)
  | absent
deriving DecidableEq, Repr

structure RawHours where
  timezone : Tag
  weekdays : Option (List Tag)
  opens : RawTime
  closes : RawTime
  exchange : Tag
deriving DecidableEq, Repr

structure Hours where
  timezone : Tz
  weekdays : List Int
  opens : Int
  closes : Int
  opens_nonneg : 0 ≤ opens
  opens_lt : opens < closes
  closes_lt : closes < dayMicros

def zoneText : Tag → String
  | .str s => s
  | .other text _ => text
  | _ => ""

def weekday : Tag → Res Int
  | .int i => if 0 ≤ i ∧ i < 7 then .ok i else cfg "trading-hours weekdays must be integers from 0 to 6"
  | _ => cfg "trading-hours weekdays must be integers from 0 to 6"

def readWeekdays : Option (List Tag) → Res (List Int)
  | some (d :: days) => (d :: days).mapM weekday
  | _ => cfg "trading-hours weekdays must be integers from 0 to 6"

def RawTime.number : RawTime → Option (Int × Bool)
  | .micros n => some (n, false)
  | .awareMicros n => some (n, true)
  | .absent => none

def checkExchange : Tag → Res Unit
  | .str "XNYS" => .ok ()
  | .str s => val s!"Unknown or unsupported exchange: '{s}'"
  | .other t _ | .dec t => val s!"Unknown or unsupported exchange: {t}"
  | .null => val "Unknown or unsupported exchange: None"
  | .bool b => val ("Unknown or unsupported exchange: " ++ if b then "True" else "False")
  | .int i => val s!"Unknown or unsupported exchange: {i}"

/-- The checks of a configured window, in the order the document's errors are reported. -/
def Hours.fromRaw (w : World) : Option RawHours → Res Hours
  | none => val "trading hours must be a JSON object"
  | some raw => do
    let unknown : Res Tz :=
      cfg ("Unknown trading-hours timezone '" ++ zoneText raw.timezone ++ "'")
    let tz ← (match raw.timezone with
      | .str s => ((w.zones s).map Except.ok).getD unknown
      | _ => unknown)
    let weekdays ← readWeekdays raw.weekdays
    match raw.opens.number, raw.closes.number with
    | some (opens, openAware), some (closes, closeAware) =>
      if openAware || closeAware then cfg "trading-hours boundaries must be local wall times"
      else if ho : 0 ≤ opens ∧ opens < dayMicros then
        if hc : 0 ≤ closes ∧ closes < dayMicros then
          if hlt : opens < closes then do
            checkExchange raw.exchange
            .ok ⟨tz, weekdays, opens, closes, ho.1, hlt, hc.2⟩
          else cfg "trading hours must open before they close"
        else cfg "trading hours must use datetime.time boundaries"
      else cfg "trading hours must use datetime.time boundaries"
    | _, _ => cfg "trading hours must use datetime.time boundaries"

/-! ## Whether the venue is open -/

/-- The instant is in the recurring window and between the session's open and close, compared as
times of day in the configured zone. -/
def Hours.isOpen (w : World) (h : Hours) (t : Int) : Res Bool :=
  if w.hasDate t then
    let clock := h.timezone.clock t
    let day := dayOf clock
    if weekdayOf day ∈ h.weekdays then do
      if ← (w.isSession day).mapError .value then
        let opened ← (w.sessionOpen day).mapError .value
        let closed ← (w.sessionClose day).mapError .value
        let opens := max h.opens (timeOf (h.timezone.clock opened))
        let closes := min h.closes (timeOf (h.timezone.clock closed))
        pure (decide (opens ≤ timeOf clock ∧ timeOf clock < closes))
      else pure false
    else pure false
  else val s!"timestamp {t}us is out of range"

end TradeEngine.Risk
