import TradeEngine.Calendar.Lemmas.Lookup

/-!
# Session lookup is exact

The sessions of an accepted table are disjoint and in order, and over it every calendar answers what their intervals say.
-/

namespace TradeEngine.Calendar

open Lib

/-- Sessions in the order of their trade dates, none overlapping another, each with its halt inside. -/
structure HolidayTable.Separate (table : HolidayTable) : Prop where
  increasing : table.sessions.Pairwise fun a b => a.tradeDate < b.tradeDate
  disjoint : table.sessions.Pairwise fun a b => ∀ t, ¬ (a.Contains t ∧ b.Contains t)
  halts : ∀ s ∈ table.sessions, s.HaltInside

namespace GlobexCalendar

/-- The trade date of a session, accepted with the session's own open and close. -/
def Accepts (c : GlobexCalendar) (D : NaiveDate) : Prop :=
  ∃ s ∈ c.table.sessions, s.tradeDate = D ∧ c.sessionOpen D = .ok s.openUtc ∧ c.sessionClose D = .ok s.closeUtc

/-- What the lookups answer for an instant. -/
structure ExactAt (C : Chrono) (c : GlobexCalendar) (t : Int) : Prop where
  answers : ∃ r, c.sessionAt C t = .ok r
  session_at : ∀ D, c.sessionAt C t = .ok (some D) ↔ ∃ s ∈ c.table.sessions, s.tradeDate = D ∧ s.Contains t
  decides : ∃ b, c.isOpenAt C t = .ok b
  is_open_at : c.isOpenAt C t = .ok true ↔
    ∃ s ∈ c.table.sessions, s.Contains t ∧ ∀ p, s.haltUtc = some p → ¬ (p.1 ≤ t ∧ t < p.2)
  session_or_next : ∀ D, c.sessionOrNext C t = .ok D ↔ IsLeast (c.closingAfter t) D
  accepted : ∀ D, c.sessionAt C t = .ok (some D) ∨ c.sessionOrNext C t = .ok D → c.Accepts D

/-- The next and the previous session of a trade date are trade dates, and each leads back. -/
structure Steps (c : GlobexCalendar) (D : NaiveDate) : Prop where
  next : ∀ E, c.nextSession D = .ok E → c.TradeDate E ∧ c.Accepts E ∧ c.previousSession E = .ok D
  previous : ∀ E, c.previousSession D = .ok E → c.TradeDate E ∧ c.Accepts E ∧ c.nextSession E = .ok D

end GlobexCalendar

variable {C : Chrono} {c : GlobexCalendar}

theorem accepts_of_mem (h : c.table.Sound C) {s : SessionInfo} (hs : s ∈ c.table.sessions) (hfirst : c.first ≤ s.tradeDate)
    (hlast : s.tradeDate ≤ c.last) : c.Accepts s.tradeDate :=
  ⟨s, hs, rfl, session_accepted h hs hfirst hlast⟩

theorem accepts_of_tradeDate (h : c.table.Sound C) {D : NaiveDate} (hD : c.TradeDate D) : c.Accepts D := by
  obtain ⟨hmem, hfirst, hlast⟩ := hD
  rw [← h.dates] at hmem
  obtain ⟨s, hs, rfl⟩ := List.mem_map.1 hmem
  exact accepts_of_mem h hs hfirst hlast

/-- A session that closes after an instant of the range closes on a date of the range. -/
theorem accepts_of_close (hC : C.Documented) (h : c.table.Sound C) (hend : c.last = c.table.lastDate) {t : Int}
    (ht : c.InRange C t) {s : SessionInfo} (hs : s ∈ c.table.sessions) (hclose : t < s.closeUtc) : c.Accepts s.tradeDate := by
  apply accepts_of_mem h hs
  · have hmono := hC.localDate_mono hclose.le
    rw [h.closes s hs] at hmono
    exact ht.1.trans hmono
  · rw [hend]
    exact (h.within _ (h.mem_tradeDates hs)).2

theorem exactAt (hC : C.Documented) (h : c.table.Sound C) (hend : c.last = c.table.lastDate) {t : Int}
    (ht : c.InRange C t) : c.ExactAt C t := by
  obtain ⟨r, hr, hspec⟩ := sessionAt_spec h ht
  obtain ⟨b, hb, hopen⟩ := isOpenAt_spec h ht
  have hat : ∀ D, c.sessionAt C t = .ok (some D) ↔ ∃ s ∈ c.table.sessions, s.tradeDate = D ∧ s.Contains t := by
    intro D
    rw [hr, ← hspec, Except.ok.injEq]
  constructor
  · exact ⟨r, hr⟩
  · exact hat
  · exact ⟨b, hb⟩
  · rw [hb, ← hopen, Except.ok.injEq]
  · exact sessionOrNext_iff h ht
  · rintro D (hD | hD)
    · obtain ⟨s, hs, rfl, hin⟩ := (hat D).1 hD
      exact accepts_of_close hC h hend ht hs hin.2
    · obtain ⟨⟨s, hs, rfl, hclose⟩, -⟩ := (sessionOrNext_iff h ht D).1 hD
      exact accepts_of_close hC h hend ht hs hclose

theorem steps (h : c.table.Sound C) (hend : c.last = c.table.lastDate) {D : NaiveDate} (hD : c.TradeDate D) : c.Steps D := by
  obtain ⟨hmem, hfirst, hlast⟩ := hD
  have hsorted : c.table.tradeDates.Pairwise fun a b => id a < id b := h.sorted
  obtain ⟨i, hi⟩ := List.mem_iff_getElem?.1 hmem
  have hdate : ∀ {j : Nat} {E : NaiveDate}, c.table.tradeDates[j]? = some E → c.first ≤ E → c.TradeDate E := by
    intro j E hj hE
    have hE' := List.mem_of_getElem? hj
    exact ⟨hE', hE, hend ▸ (h.within E hE').2⟩
  constructor
  · intro E hE
    have hj := (nextSession_eq h hi hfirst hlast).1 hE
    have hge : c.first ≤ E := hfirst.trans (key_lt_of_lt hsorted (Nat.lt_succ_self i) hi hj).le
    have hE' := hdate hj hge
    exact ⟨hE', accepts_of_tradeDate h hE', (previousSession_eq h hj hge hE'.2.2).2 ⟨Nat.succ_pos i, hi, hfirst⟩⟩
  · intro E hE
    obtain ⟨hpos, hj, hge⟩ := (previousSession_eq h hi hfirst hlast).1 hE
    have hE' := hdate hj hge
    refine ⟨hE', accepts_of_tradeDate h hE', (nextSession_eq h hj hge hE'.2.2).2 ?_⟩
    rwa [Nat.sub_add_cancel hpos]

theorem session_lookup_exact (C : Chrono) (hC : C.Documented) (text : List Char) (eras : List Era)
    (heras : ∀ e ∈ eras, e.Halting) (table : HolidayTable) (h : parseHolidayTableEras C text eras = .ok table) :
    table.Separate ∧ ∀ root listedFrom,
      (∀ t, (GlobexCalendar.over root listedFrom table).InRange C t → (GlobexCalendar.over root listedFrom table).ExactAt C t) ∧
      ∀ D, (GlobexCalendar.over root listedFrom table).TradeDate D → (GlobexCalendar.over root listedFrom table).Steps D := by
  have hsound := parse_sound hC heras h
  refine ⟨⟨hsound.dates_lt, hsound.disjoint, hsound.halts⟩, fun root listedFrom => ⟨?_, ?_⟩⟩
  · exact fun t ht => exactAt hC hsound rfl ht
  · exact fun D hD => steps hsound rfl hD

namespace Sample

def number (l : List Char) : Option Nat :=
  if l.isEmpty || !l.all Char.isDigit then none else some (l.foldl (fun n c => 10 * n + (c.toNat - 48)) 0)

def numbers (sep : Char) (l : List Char) : Option (Nat × Nat) := do
  let p ← splitOnce sep l
  pure (← number p.1, ← number p.2)

def parseTime (l : List Char) : Except String Nat :=
  match numbers ':' l with
  | some p => if p.1 < 24 ∧ p.2 < 60 then .ok (p.1 * 3600 + p.2 * 60) else .error "input is out of range"
  | none => .error "input contains invalid characters"

def parseDate (l : List Char) : Except String NaiveDate :=
  match splitOnce '-' l with
  | some p => match number p.1, numbers '-' p.2 with
    | some y, some q =>
      if (1 ≤ q.1 ∧ q.1 ≤ 12) ∧ 1 ≤ q.2 ∧ q.2 ≤ daysInMonth y q.1 then .ok (.ymd y q.1 q.2)
      else .error "input is out of range"
    | _, _ => .error "input contains invalid characters"
  | none => .error "premature end of input"

/-- The local time of 2009-03-08 02:00, when the clocks went forward. -/
def spring : Int := 63372160800

/-- The local time of 2009-11-01 02:00, when the clocks went back. -/
def fall : Int := 63392724000

/-- The instant of a local time of 2009, both in seconds. -/
def instantOf (l : Int) : Option Int :=
  if spring ≤ l ∧ l < spring + 3600 ∨ fall - 3600 ≤ l ∧ l < fall then none
  else if spring ≤ l ∧ l < fall then some (l + 14400)
  else some (l + 18000)

def localDay (i : Int) : Int :=
  (if spring + 18000 ≤ i ∧ i < fall + 14400 then i - 14400 else i - 18000) / 86400

/-- New York in 2009. -/
def newYork : Chrono where
  parseDate := parseDate
  parseTime := parseTime
  toUtc d t := if t < 86400 then instantOf (d.numDaysFromCe * 86400 + t) else none
  localDate i := (NaiveDate.ymd 2009 1 1).shift (localDay i - 733408)
  showDate := NaiveDate.iso
  showTime t := toString t
  showInstant i := toString i

theorem numDaysFromCe_localDate (i : Int) : (newYork.localDate i).numDaysFromCe = localDay i := by
  have hce : (NaiveDate.ymd 2009 1 1).numDaysFromCe = 733408 := by decide +kernel
  change ((NaiveDate.ymd 2009 1 1).shift (localDay i - 733408)).numDaysFromCe = localDay i
  rw [numDaysFromCe_shift, hce]
  omega

theorem newYork_documented : newYork.Documented where
  localDate_toUtc d t i h := by
    apply numDaysFromCe_injective
    rw [numDaysFromCe_localDate]
    simp only [newYork, instantOf] at h
    split_ifs at h with ht hgap hsummer
    · cases h
      simp only [localDay, spring, fall] at *
      split_ifs
      · omega
      · omega
    · cases h
      simp only [localDay, spring, fall] at *
      split_ifs
      · omega
      · omega
  localDate_mono i j hij := by
    rw [le_iff, numDaysFromCe_localDate, numDaysFromCe_localDate]
    simp only [localDay, spring, fall]
    split_ifs
    · omega
    · omega
  toUtc_lt d s t i j hs ht hst := by
    simp only [newYork, instantOf] at hs ht
    split_ifs at hs ht
    all_goals
      cases hs
      cases ht
      simp only [spring, fall] at *
      omega

def holidays : List Char :=
  "date,status,halt_et,reopen_et\n2009-05-25,early_halt,13:15,18:00".toList

def era : Era := ⟨.ymd 2006 1 1, .ymd 2012 11 16, some (16, 15), some ((16, 15), (16, 30))⟩

end Sample

theorem session_lookup_exact_2009 : ∃ table,
    parseHolidayTableEras Sample.newYork Sample.holidays [Sample.era] = .ok table ∧ table.Separate ∧
      ∀ t, (GlobexCalendar.over "YM" (some (.ymd 2009 6 28)) table).InRange Sample.newYork t →
        (GlobexCalendar.over "YM" (some (.ymd 2009 6 28)) table).ExactAt Sample.newYork t := by
  have hsome : (parseHolidayTableEras Sample.newYork Sample.holidays [Sample.era]).toOption.isSome = true := by
    decide +kernel
  obtain ⟨table, htable⟩ := Option.isSome_iff_exists.1 hsome
  have hok := toOption_eq_some.1 htable
  have hera : ∀ e ∈ [Sample.era], e.Halting := by
    intro e he h hh
    obtain rfl := List.mem_singleton.1 he
    cases hh
    decide
  obtain ⟨hsep, hcal⟩ := session_lookup_exact _ Sample.newYork_documented _ _ hera table hok
  exact ⟨table, hok, hsep, (hcal "YM" _).1⟩

end TradeEngine.Calendar
