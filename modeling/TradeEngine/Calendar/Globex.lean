import TradeEngine.Calendar.Date
import TradeEngine.Lib.Search
import TradeEngine.Lib.Str

/-!
# CME Globex sessions

The holiday table read from its CSV text, the sessions built from it under the dated rules of a product group, and
the lookups of a root's calendar. A panic of the program is an outcome of its own.
-/

namespace TradeEngine.Calendar

open Lib

/-- `chrono` and the New York zone of `chrono-tz`. Times are seconds of the day, instants counted from any epoch. -/
structure Chrono where
  parseDate : List Char → Except String NaiveDate
  parseTime : List Char → Except String Nat
  /-- The one instant of a local time; `none` in a gap or an overlap. -/
  toUtc : NaiveDate → Nat → Option Int
  localDate : Int → NaiveDate
  showDate : NaiveDate → String
  showTime : Nat → String
  showInstant : Int → String

inductive GlobexError where
  | notASession (date : NaiveDate)
  | invertedRange (start stop : NaiveDate)
  | malformedRow (msg : String)
  | unknownRoot (root : String)
  | rootOutOfRange (root : String) (date first last : NaiveDate)
  | rootOutOfRangeInstant (root : String) (instant : Int) (first last : NaiveDate)
deriving DecidableEq

inductive Fault where
  | panic
  | globex (e : GlobexError)
deriving DecidableEq

inductive HolidayStatus where
  | closed
  | earlyHalt
deriving DecidableEq

structure HolidayRow where
  date : NaiveDate
  status : HolidayStatus
  haltEt : Option Nat
  reopenDate : Option NaiveDate
  reopenTime : Option Nat
  sourceUrl : List Char
  sourceTitle : List Char
  notes : List Char
deriving DecidableEq

structure SessionInfo where
  tradeDate : NaiveDate
  openUtc : Int
  closeUtc : Int
  /-- A halt `[start, end)` inside the session. -/
  haltUtc : Option (Int × Int)
deriving DecidableEq

/-- Dated session rules of a product group; times are hours and minutes. -/
structure Era where
  fromDate : NaiveDate
  toDate : NaiveDate
  fridayCloseEt : Option (Nat × Nat)
  weekdayHaltEt : Option ((Nat × Nat) × (Nat × Nat))

structure HolidayTable where
  rows : List HolidayRow
  holidays : NaiveDate → Option HolidayRow
  firstDate : NaiveDate
  lastDate : NaiveDate
  tradeDates : List NaiveDate
  sessions : List SessionInfo
  sessionMap : NaiveDate → Option (Int × Int)

def malformed {α : Type} (msg : String) : Except Fault α := .error (.globex (.malformedRow msg))

/-! ## The text -/

/-- `split_csv_line`, from the middle of a field. -/
def splitCsvFrom (current : List Char) (inQuotes : Bool) : List Char → Except String (List (List Char))
  | [] => if inQuotes then .error "unclosed quote in CSV line" else .ok [current]
  | '"' :: '"' :: l =>
    if inQuotes then splitCsvFrom (current ++ ['"']) true l else splitCsvFrom current true ('"' :: l)
  | '"' :: l => splitCsvFrom current (!inQuotes) l
  | c :: l =>
    if c = ',' ∧ inQuotes = false then (splitCsvFrom [] false l).map (current :: ·)
    else splitCsvFrom (current ++ [c]) inQuotes l

def splitCsvLine (line : List Char) : Except String (List (List Char)) := splitCsvFrom [] false line

def parseStatus (n : Nat) (text : List Char) : Except Fault HolidayStatus :=
  let other := String.ofList text
  if text = "closed".toList then .ok .closed
  else if text = "early_halt".toList then .ok .earlyHalt
  else malformed s!"line {n}: invalid status '{other}', expected 'closed' or 'early_halt'"

def parseHalt (C : Chrono) (n : Nat) (status : HolidayStatus) (text : List Char) : Except Fault (Option Nat) :=
  let raw := String.ofList text
  match status with
  | .closed =>
    if text.isEmpty then .ok none else malformed s!"line {n}: closed status must not have halt_et, got '{raw}'"
  | .earlyHalt =>
    if text.isEmpty then malformed s!"line {n}: early_halt status requires halt_et"
    else match C.parseTime text with
      | .ok t => .ok (some t)
      | .error e => malformed s!"line {n}: invalid halt_et '{raw}': {e}"

def parseReopenTime (C : Chrono) (n : Nat) (text : List Char) : Except Fault Nat :=
  let raw := String.ofList text
  match C.parseTime text with
  | .ok t => .ok t
  | .error e => malformed s!"line {n}: invalid time in reopen_et '{raw}': {e}"

def parseReopen (C : Chrono) (n : Nat) (date : NaiveDate) (text : List Char) :
    Except Fault (Option NaiveDate × Option Nat) :=
  let raw := String.ofList text
  if text.isEmpty then .ok (none, none)
  else if ' ' ∈ text then
    match splitWhitespace text with
    | [] => .error .panic
    | [_] => malformed s!"line {n}: invalid reopen_et format '{raw}'"
    | [d, t] =>
      let day := String.ofList d
      match C.parseDate d with
      | .ok rd => do
        let rt ← parseReopenTime C n t
        pure (some rd, some rt)
      | .error e => malformed s!"line {n}: invalid date in reopen_et '{day}': {e}"
    | _ => malformed s!"line {n}: too many tokens in reopen_et '{raw}'"
  else do
    let rt ← parseReopenTime C n text
    pure (some date, some rt)

/-- A reopening on the day of the halt comes after it. -/
def checkReopen (C : Chrono) (n : Nat) (row : HolidayRow) : Except Fault Unit :=
  match row.haltEt, row.reopenDate, row.reopenTime with
  | some h, some rd, some rt =>
    let halt := C.showTime h
    let reopen := C.showTime rt
    let date := C.showDate row.date
    if rd = row.date ∧ rt ≤ h then
      malformed s!"line {n}: reopen_et {reopen} is before or equal to halt_et {halt} on {date}"
    else .ok ()
  | _, _, _ => .ok ()

def parseFields (C : Chrono) (n : Nat) : List (List Char) → Except Fault HolidayRow
  | dateText :: statusText :: haltText :: reopenText :: more => do
    let raw := String.ofList dateText
    let date ← match C.parseDate (trim dateText) with
      | .ok d => pure d
      | .error e => malformed s!"line {n}: invalid date '{raw}': {e}"
    let status ← parseStatus n (trim statusText)
    let haltEt ← parseHalt C n status (trim haltText)
    let reopen ← parseReopen C n date (trim reopenText)
    let field (i : Nat) := (more[i]?.map trim).getD []
    let row : HolidayRow := ⟨date, status, haltEt, reopen.1, reopen.2, field 0, field 1, field 2⟩
    checkReopen C n row
    pure row
  | fields =>
    let got := fields.length
    malformed s!"line {n}: expected at least 4 fields, got {got}"

/-- What the loop over the lines has collected. -/
structure Reading where
  rows : List HolidayRow
  holidays : NaiveDate → Option HolidayRow
  minYear : Int
  maxYear : Int

def Reading.start : Reading := ⟨[], fun _ => none, 2147483647, -2147483648⟩

def Reading.add (r : Reading) (row : HolidayRow) : Reading :=
  ⟨r.rows ++ [row], Function.update r.holidays row.date (some row), min r.minYear row.date.year, max r.maxYear row.date.year⟩

/-- One line of the body; the first is line 2. -/
def readLine (C : Chrono) (r : Reading) (line : List Char × Nat) : Except Fault Reading :=
  let n := line.2 + 2
  if (trim line.1).isEmpty then .ok r
  else match splitCsvLine (trim line.1) with
    | .error e => malformed s!"line {n}: {e}"
    | .ok fields => r.add <$> parseFields C n fields

def checkHeader (line : List Char) : Except Fault Unit :=
  let columns := String.ofList line
  match splitCsvLine line with
  | .error e => malformed e
  | .ok fields =>
    if fields.take 4 = ["date".toList, "status".toList, "halt_et".toList, "reopen_et".toList] then .ok ()
    else malformed s!"unexpected header columns: {columns}"

def readTable (C : Chrono) (text : List Char) : Except Fault Reading :=
  match lines text with
  | [] => malformed "empty CSV text"
  | header :: body => do
    checkHeader (trim header)
    let r ← body.zipIdx.foldlM (readLine C) Reading.start
    if r.rows.isEmpty then malformed "no rows in holiday table" else pure r

/-! ## The sessions -/

/-- `cur + Duration::days(1)`; `chrono` has no later year. -/
def nextDay (d : NaiveDate) : Except Fault NaiveDate := if d.next.year ≤ 262142 then .ok d.next else .error .panic

def previousDay (d : NaiveDate) : Except Fault NaiveDate :=
  if -262143 ≤ d.previous.year then .ok d.previous else .error .panic

/-- Days from Sunday. -/
def weekday (d : NaiveDate) : Int := d.numDaysFromCe % 7

def isWeekend (d : NaiveDate) : Bool := weekday d = 6 ∨ weekday d = 0

def isFriday (d : NaiveDate) : Bool := weekday d = 5

def isClosedRow (row : Option HolidayRow) : Bool := row.map (·.status) = some .closed

def isEarlyRow (row : Option HolidayRow) : Bool := row.map (·.status) = some .earlyHalt

def tradeDatesLoop (holidays : NaiveDate → Option HolidayRow) (last : NaiveDate) :
    Nat → NaiveDate → Except Fault (List NaiveDate)
  | 0, _ => .ok []
  | fuel + 1, cur =>
    if cur ≤ last then do
      let next ← nextDay cur
      let later ← tradeDatesLoop holidays last fuel next
      pure (if isWeekend cur || isClosedRow (holidays cur) then later else cur :: later)
    else .ok []

def tradeDatesOf (holidays : NaiveDate → Option HolidayRow) (first last : NaiveDate) : Except Fault (List NaiveDate) :=
  tradeDatesLoop holidays last (last.numDaysFromCe + 1 - first.numDaysFromCe).toNat first

/-- Where the latest holiday since the previous trade date says the session opens. -/
def reopening (rows : List HolidayRow) (previous td : NaiveDate) : Option (NaiveDate × Nat) :=
  match (rows.filter fun r => previous ≤ r.date ∧ r.date < td).getLast? with
  | none => none
  | some h => match h.reopenDate, h.reopenTime with
    | some rd, some rt => some (rd, rt)
    | _, _ => none

/-- The trade dates that open at a reopening, each looked for since the one before it. -/
def overridesFrom (rows : List HolidayRow) : NaiveDate → List NaiveDate → List (NaiveDate × NaiveDate × Nat)
  | _, [] => []
  | previous, td :: tds => match reopening rows previous td with
    | some o => (td, o) :: overridesFrom rows td tds
    | none => overridesFrom rows td tds

def openOverrides (rows : List HolidayRow) (first : NaiveDate) (tds : List NaiveDate) :
    Except Fault (List (NaiveDate × NaiveDate × Nat)) :=
  if tds.isEmpty then .ok []
  else do
    let before ← previousDay first
    pure (overridesFrom rows before tds)

def nyTimeToUtc (C : Chrono) (d : NaiveDate) (t : Nat) : Except Fault Int :=
  match C.toUtc d t with
  | some i => .ok i
  | none => .error .panic

def nyToUtc (C : Chrono) (d : NaiveDate) (hm : Nat × Nat) : Except Fault Int :=
  if hm.1 < 24 ∧ hm.2 < 60 then nyTimeToUtc C d (hm.1 * 3600 + hm.2 * 60) else .error .panic

def defaultClose (C : Chrono) (era : Option Era) (td : NaiveDate) : Except Fault Int :=
  match era.bind (·.fridayCloseEt) with
  | some hm => if isFriday td then nyToUtc C td hm else nyToUtc C td (17, 0)
  | none => nyToUtc C td (17, 0)

def openOf (C : Chrono) (overrides : List (NaiveDate × NaiveDate × Nat)) (td : NaiveDate) : Except Fault Int :=
  match overrides.lookup td with
  | some o => nyTimeToUtc C o.1 o.2
  | none => do
    let evening ← previousDay td
    nyToUtc C evening (18, 0)

/-- The close; the default one is computed first in any case. -/
def closeOf (C : Chrono) (holidays : NaiveDate → Option HolidayRow) (era : Option Era) (td : NaiveDate) :
    Except Fault Int := do
  let usual ← defaultClose C era td
  if isEarlyRow (holidays td) then
    match (holidays td).bind (·.haltEt) with
    | some h => nyTimeToUtc C td h
    | none => .error .panic
  else pure usual

/-- The halt of the era, where the session still runs past it. -/
def haltOf (C : Chrono) (era : Option Era) (td : NaiveDate) (opens close : Int) : Except Fault (Option (Int × Int)) :=
  match era.bind (·.weekdayHaltEt) with
  | none => .ok none
  | some h => do
    let hs ← nyToUtc C td h.1
    let he ← nyToUtc C td h.2
    pure (if opens ≤ hs ∧ he < close then some (hs, he) else none)

def buildSession (C : Chrono) (eras : List Era) (holidays : NaiveDate → Option HolidayRow)
    (overrides : List (NaiveDate × NaiveDate × Nat)) (td : NaiveDate) : Except Fault SessionInfo := do
  let opens ← openOf C overrides td
  let era := eras.find? fun e => e.fromDate ≤ td ∧ td ≤ e.toDate
  let close ← closeOf C holidays era td
  let halt ← haltOf C era td opens close
  let date := C.showDate td
  let start := C.showInstant opens
  let stop := C.showInstant close
  if opens ≥ close then malformed s!"trade date {date} has open {start} >= close {stop}"
  else pure ⟨td, opens, close, halt⟩

def checkOverlaps (C : Chrono) : List SessionInfo → Except Fault Unit
  | a :: b :: l =>
    let date := C.showDate a.tradeDate
    let close := C.showInstant a.closeUtc
    let next := C.showDate b.tradeDate
    let opens := C.showInstant b.openUtc
    if a.closeUtc > b.openUtc then
      malformed s!"overlapping sessions between {date} close {close} and {next} open {opens}"
    else checkOverlaps C (b :: l)
  | _ => .ok ()

def insertSession (m : NaiveDate → Option (Int × Int)) (s : SessionInfo) : NaiveDate → Option (Int × Int) :=
  Function.update m s.tradeDate (some (s.openUtc, s.closeUtc))

/-- The map filled session by session. -/
def sessionMapOf (sessions : List SessionInfo) : NaiveDate → Option (Int × Int) :=
  sessions.foldl insertSession fun _ => none

def parseHolidayTableEras (C : Chrono) (text : List Char) (eras : List Era) : Except Fault HolidayTable := do
  let r ← readTable C text
  let first := NaiveDate.ymd r.minYear 1 1
  let last := NaiveDate.ymd r.maxYear 12 31
  let tradeDates ← tradeDatesOf r.holidays first last
  let overrides ← openOverrides r.rows first tradeDates
  let sessions ← tradeDates.mapM (buildSession C eras r.holidays overrides)
  checkOverlaps C sessions
  pure ⟨r.rows, r.holidays, first, last, tradeDates, sessions, sessionMapOf sessions⟩

/-! ## The calendar of a root -/

structure GlobexCalendar where
  root : String
  table : HolidayTable
  first : NaiveDate
  last : NaiveDate

/-- The calendar over a table, from a listing on. -/
def GlobexCalendar.over (root : String) (listedFrom : Option NaiveDate) (t : HolidayTable) : GlobexCalendar :=
  let first := match listedFrom with
    | some f => if f > t.firstDate then f else t.firstDate
    | none => t.firstDate
  ⟨root, t, first, t.lastDate⟩

namespace GlobexCalendar

def oor {α : Type} (c : GlobexCalendar) (dt : NaiveDate) : Except GlobexError α :=
  .error (.rootOutOfRange c.root dt c.first c.last)

def oorInstant {α : Type} (c : GlobexCalendar) (t : Int) : Except GlobexError α :=
  .error (.rootOutOfRangeInstant c.root t c.first c.last)

def checkDate (c : GlobexCalendar) (dt : NaiveDate) : Except GlobexError Unit :=
  if dt < c.first ∨ dt > c.last then c.oor dt else .ok ()

def checkInstant (C : Chrono) (c : GlobexCalendar) (t : Int) : Except GlobexError Unit :=
  if C.localDate t < c.first ∨ C.localDate t > c.last then c.oorInstant t else .ok ()

def sessionOpen (c : GlobexCalendar) (dt : NaiveDate) : Except GlobexError Int := do
  c.checkDate dt
  match c.table.sessionMap dt with
  | some s => pure s.1
  | none => .error (.notASession dt)

def sessionClose (c : GlobexCalendar) (dt : NaiveDate) : Except GlobexError Int := do
  c.checkDate dt
  match c.table.sessionMap dt with
  | some s => pure s.2
  | none => .error (.notASession dt)

/-- The sessions that have opened by an instant. -/
def opened (c : GlobexCalendar) (t : Int) : Nat := partitionPoint (fun s => decide (s.openUtc ≤ t)) c.table.sessions

def sessionAt (C : Chrono) (c : GlobexCalendar) (t : Int) : Except GlobexError (Option NaiveDate) := do
  c.checkInstant C t
  let idx := c.opened t
  if idx = 0 then pure none
  else match c.table.sessions[idx - 1]? with
    | some s => pure (if t < s.closeUtc then some s.tradeDate else none)
    | none => pure none

def sessionHalt (c : GlobexCalendar) (dt : NaiveDate) : Option (Int × Int) :=
  match binarySearchByKey (·.tradeDate) c.table.sessions dt with
  | some i => c.table.sessions[i]?.bind (·.haltUtc)
  | none => none

def isOpenAt (C : Chrono) (c : GlobexCalendar) (t : Int) : Except GlobexError Bool := do
  match ← c.sessionAt C t with
  | none => pure false
  | some td => pure (!((c.sessionHalt td).any fun h => h.1 ≤ t ∧ t < h.2))

def sessionOrNext (C : Chrono) (c : GlobexCalendar) (t : Int) : Except GlobexError NaiveDate := do
  c.checkInstant C t
  match ← c.sessionAt C t with
  | some td => pure td
  | none => match c.table.sessions[c.opened t]? with
    | some s => pure s.tradeDate
    | none => c.oorInstant t

def nextSession (c : GlobexCalendar) (dt : NaiveDate) : Except GlobexError NaiveDate := do
  c.checkDate dt
  match c.table.tradeDates[partitionPoint (fun td => decide (td ≤ dt)) c.table.tradeDates]? with
  | some td => pure td
  | none => c.oor dt

def previousSession (c : GlobexCalendar) (dt : NaiveDate) : Except GlobexError NaiveDate := do
  c.checkDate dt
  let idx := partitionPoint (fun td => decide (td < dt)) c.table.tradeDates
  if 0 < idx then
    match c.table.tradeDates[idx - 1]? with
    | some td => if c.first ≤ td then pure td else c.oor dt
    | none => c.oor dt
  else c.oor dt

end GlobexCalendar

end TradeEngine.Calendar
