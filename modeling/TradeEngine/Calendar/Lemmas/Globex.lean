import TradeEngine.Calendar.Globex
import TradeEngine.Lib.Except

/-!
# What an accepted holiday table is

The trade dates are the open weekdays of the table's years in order, and the sessions built on them follow one another.
-/

namespace TradeEngine.Calendar

open Lib

/-- What the code relies on: a local time's instant is on its date, dates follow instants and so do the times of a day. -/
structure Chrono.Documented (C : Chrono) : Prop where
  localDate_toUtc : ∀ d t i, C.toUtc d t = some i → C.localDate i = d
  localDate_mono : Monotone C.localDate
  toUtc_lt : ∀ d s t i j, C.toUtc d s = some i → C.toUtc d t = some j → s < t → i < j

/-- The halts of the era start before they end. -/
def Era.Halting (e : Era) : Prop := ∀ h, e.weekdayHaltEt = some h → h.1.1 * 60 + h.1.2 < h.2.1 * 60 + h.2.2

/-- A halt inside its session. -/
def SessionInfo.HaltInside (s : SessionInfo) : Prop :=
  ∀ h, s.haltUtc = some h → s.openUtc ≤ h.1 ∧ h.1 < h.2 ∧ h.2 < s.closeUtc

/-- The invariant of an accepted table. -/
structure HolidayTable.Sound (C : Chrono) (t : HolidayTable) : Prop where
  dates : t.sessions.map (·.tradeDate) = t.tradeDates
  sorted : t.tradeDates.Pairwise (· < ·)
  within : ∀ d ∈ t.tradeDates, t.firstDate ≤ d ∧ d ≤ t.lastDate
  opens : ∀ s ∈ t.sessions, s.openUtc < s.closeUtc
  ordered : t.sessions.Pairwise fun a b => a.closeUtc ≤ b.openUtc
  closes : ∀ s ∈ t.sessions, C.localDate s.closeUtc = s.tradeDate
  halts : ∀ s ∈ t.sessions, s.HaltInside
  map_eq : t.sessionMap = sessionMapOf t.sessions

/-! ## Trade dates -/

variable {holidays : NaiveDate → Option HolidayRow} {fuel : Nat} {cur first last : NaiveDate} {tds : List NaiveDate}

theorem nextDay_ok {d e : NaiveDate} (h : nextDay d = .ok e) : e = d.next := by
  unfold nextDay at h
  split_ifs at h
  · cases h
    rfl

/-- One step of the loop: the date is kept unless there is no trading on it. -/
theorem tradeDatesLoop_succ (h : tradeDatesLoop holidays last (fuel + 1) cur = .ok tds) :
    (last < cur ∧ tds = []) ∨ (cur ≤ last ∧ ∃ later, tradeDatesLoop holidays last fuel cur.next = .ok later ∧
      tds = if isWeekend cur || isClosedRow (holidays cur) then later else cur :: later) := by
  rw [tradeDatesLoop] at h
  by_cases hle : cur ≤ last
  · rw [if_pos hle] at h
    obtain ⟨next, hnext, h⟩ := bind_eq_ok.1 h
    obtain ⟨later, hlater, h⟩ := bind_eq_ok.1 h
    rw [nextDay_ok hnext] at hlater
    exact .inr ⟨hle, later, hlater, (pure_eq_ok.1 h).symm⟩
  · rw [if_neg hle] at h
    exact .inl ⟨not_le.1 hle, by cases h; rfl⟩

/-- The loop collects the weekdays up to the last date that are not closed, given enough fuel. -/
theorem mem_tradeDatesLoop (h : tradeDatesLoop holidays last fuel cur = .ok tds)
    (hfuel : last.numDaysFromCe + 1 - cur.numDaysFromCe ≤ fuel) (d : NaiveDate) :
    d ∈ tds ↔ (cur ≤ d ∧ d ≤ last) ∧ isWeekend d = false ∧ isClosedRow (holidays d) = false := by
  induction fuel generalizing cur tds with
  | zero =>
    cases h
    have hlt : last < cur := lt_iff.2 (by push_cast at hfuel; omega)
    constructor
    · intro hd
      cases hd
    · rintro ⟨⟨hcur, hlast⟩, -⟩
      exact absurd (hcur.trans hlast) (not_le.2 hlt)
  | succ fuel ih =>
    obtain ⟨hlt, rfl⟩ | ⟨hle, later, hlater, rfl⟩ := tradeDatesLoop_succ h
    · constructor
      · intro hd
        cases hd
      · rintro ⟨⟨hcur, hlast⟩, -⟩
        exact absurd (hcur.trans hlast) (not_le.2 hlt)
    · have hnext := ih hlater (by rw [numDaysFromCe_next]; push_cast at hfuel; omega)
      by_cases hd : d = cur
      · subst hd
        have hself : d ∉ later := fun hmem => absurd (next_le_iff.1 ((hnext.1 hmem).1.1)) (lt_irrefl _)
        cases hw : isWeekend d
        · cases hc : isClosedRow (holidays d) <;> simp [hself, hle]
        · simp [hself]
      · have hcur : cur ≤ d ↔ cur.next ≤ d := by rw [next_le_iff, lt_iff_le_and_ne]; simp [Ne.symm hd]
        rw [hcur, ← hnext]
        split_ifs
        · rfl
        · simp [hd]

theorem tradeDatesLoop_sorted (h : tradeDatesLoop holidays last fuel cur = .ok tds) :
    tds.Pairwise (· < ·) ∧ ∀ d ∈ tds, cur ≤ d := by
  induction fuel generalizing cur tds with
  | zero =>
    cases h
    simp
  | succ fuel ih =>
    obtain ⟨-, rfl⟩ | ⟨-, later, hlater, rfl⟩ := tradeDatesLoop_succ h
    · simp
    · obtain ⟨hsorted, hge⟩ := ih hlater
      have hlt : ∀ d ∈ later, cur < d := fun d hd => (lt_next cur).trans_le (hge d hd)
      split_ifs
      · exact ⟨hsorted, fun d hd => (hlt d hd).le⟩
      · refine ⟨List.pairwise_cons.2 ⟨hlt, hsorted⟩, ?_⟩
        intro d hd
        rcases List.mem_cons.1 hd with rfl | hd
        · exact le_rfl
        · exact (hlt d hd).le

/-- The trade dates are the weekdays of the range that are not closed. -/
theorem mem_tradeDatesOf (h : tradeDatesOf holidays first last = .ok tds) (d : NaiveDate) :
    d ∈ tds ↔ (first ≤ d ∧ d ≤ last) ∧ isWeekend d = false ∧ isClosedRow (holidays d) = false :=
  mem_tradeDatesLoop h (Int.self_le_toNat _) d

theorem tradeDatesOf_sorted (h : tradeDatesOf holidays first last = .ok tds) : tds.Pairwise (· < ·) :=
  (tradeDatesLoop_sorted h).1

/-! ## One session -/

variable {C : Chrono} {d td : NaiveDate} {i opens close : Int} {era : Option Era}

theorem nyTimeToUtc_ok {t : Nat} (h : nyTimeToUtc C d t = .ok i) : C.toUtc d t = some i := by
  unfold nyTimeToUtc at h
  split at h
  · cases h
    assumption
  · cases h

theorem nyToUtc_ok {hm : Nat × Nat} (h : nyToUtc C d hm = .ok i) : C.toUtc d (hm.1 * 3600 + hm.2 * 60) = some i := by
  unfold nyToUtc at h
  split_ifs at h
  exact nyTimeToUtc_ok h

/-- A session closes on its trade date. -/
theorem closeOf_ok (h : closeOf C holidays era td = .ok close) : ∃ t, C.toUtc td t = some close := by
  obtain ⟨usual, husual, h⟩ := bind_eq_ok.1 h
  split_ifs at h
  · split at h
    · exact ⟨_, nyTimeToUtc_ok h⟩
    · cases h
  · cases h
    unfold defaultClose at husual
    split at husual
    · split_ifs at husual
      · exact ⟨_, nyToUtc_ok husual⟩
      · exact ⟨_, nyToUtc_ok husual⟩
    · exact ⟨_, nyToUtc_ok husual⟩

theorem haltOf_ok (hC : C.Documented) (hera : ∀ e ∈ era, e.Halting) {halt : Option (Int × Int)}
    (h : haltOf C era td opens close = .ok halt) (p : Int × Int) (hp : halt = some p) :
    opens ≤ p.1 ∧ p.1 < p.2 ∧ p.2 < close := by
  subst hp
  unfold haltOf at h
  split at h
  · cases h
  · rename_i times htimes
    obtain ⟨e, he, htimes⟩ := Option.bind_eq_some_iff.1 htimes
    obtain ⟨hs, hstart, h⟩ := bind_eq_ok.1 h
    obtain ⟨he', hend, h⟩ := bind_eq_ok.1 h
    rw [pure_eq_ok] at h
    split_ifs at h with hin
    cases h
    have hlt := hera e he times htimes
    have htime : times.1.1 * 3600 + times.1.2 * 60 < times.2.1 * 3600 + times.2.2 * 60 := by omega
    exact ⟨hin.1, hC.toUtc_lt td _ _ _ _ (nyToUtc_ok hstart) (nyToUtc_ok hend) htime, hin.2⟩

variable {eras : List Era} {overrides : List (NaiveDate × NaiveDate × Nat)} {s : SessionInfo}

theorem buildSession_ok (hC : C.Documented) (heras : ∀ e ∈ eras, e.Halting)
    (h : buildSession C eras holidays overrides td = .ok s) :
    s.tradeDate = td ∧ s.openUtc < s.closeUtc ∧ C.localDate s.closeUtc = td ∧ s.HaltInside := by
  obtain ⟨opens, -, h⟩ := bind_eq_ok.1 h
  obtain ⟨close, hclose, h⟩ := bind_eq_ok.1 h
  obtain ⟨halt, hhalt, h⟩ := bind_eq_ok.1 h
  split_ifs at h with hlt
  · cases h
  · cases h
    obtain ⟨t, ht⟩ := closeOf_ok hclose
    have hera : ∀ e ∈ eras.find? (fun e => decide (e.fromDate ≤ td ∧ td ≤ e.toDate)), e.Halting :=
      fun e he => heras e (List.mem_of_find?_eq_some he)
    exact ⟨rfl, not_le.1 hlt, hC.localDate_toUtc td t close ht, haltOf_ok hC hera hhalt⟩

/-! ## The table -/

/-- Sessions that do not overlap their neighbours follow one another. -/
theorem checkOverlaps_ok {sessions : List SessionInfo} {u : Unit} (h : checkOverlaps C sessions = .ok u)
    (hopen : ∀ s ∈ sessions, s.openUtc < s.closeUtc) : sessions.Pairwise fun a b => a.closeUtc ≤ b.openUtc := by
  fun_induction checkOverlaps C sessions with
  | case1 => cases h
  | case2 a b l hle ih =>
    have hrest := ih h fun s hs => hopen s (List.mem_cons_of_mem a hs)
    refine List.pairwise_cons.2 ⟨?_, hrest⟩
    intro s hs
    rcases List.mem_cons.1 hs with rfl | hs
    · exact not_lt.1 hle
    · have hb := hopen b (by simp)
      exact (not_lt.1 hle).trans (hb.le.trans ((List.pairwise_cons.1 hrest).1 s hs))
  | case3 l hl =>
    rcases l with _ | ⟨a, _ | ⟨b, l⟩⟩
    · exact .nil
    · exact List.pairwise_singleton _ a
    · exact absurd rfl (hl a b l)

theorem parse_sound (hC : C.Documented) (heras : ∀ e ∈ eras, e.Halting) {text : List Char} {table : HolidayTable}
    (h : parseHolidayTableEras C text eras = .ok table) : table.Sound C := by
  obtain ⟨r, -, h⟩ := bind_eq_ok.1 h
  obtain ⟨tradeDates, hdates, h⟩ := bind_eq_ok.1 h
  obtain ⟨overrides, -, h⟩ := bind_eq_ok.1 h
  obtain ⟨sessions, hsessions, h⟩ := bind_eq_ok.1 h
  obtain ⟨_, hoverlaps, h⟩ := bind_eq_ok.1 h
  cases h
  have hbuilt := mapM_ok hsessions
  have hall : ∀ s ∈ sessions, s.openUtc < s.closeUtc ∧ C.localDate s.closeUtc = s.tradeDate ∧ s.HaltInside := by
    intro s hs
    obtain ⟨td, -, htd⟩ := forall₂_right hbuilt s hs
    obtain ⟨rfl, hs⟩ := buildSession_ok hC heras htd
    exact hs
  have hopen : ∀ s ∈ sessions, s.openUtc < s.closeUtc := fun s hs => (hall s hs).1
  constructor
  · have heq : List.Forall₂ (· = ·) tradeDates (sessions.map (·.tradeDate)) :=
      List.forall₂_map_right_iff.2 (hbuilt.imp fun td s h => (buildSession_ok hC heras h).1.symm)
    exact (List.forall₂_eq_eq_eq ▸ heq).symm
  · exact tradeDatesOf_sorted hdates
  · exact fun d hd => ((mem_tradeDatesOf hdates d).1 hd).1
  · exact hopen
  · exact checkOverlaps_ok hoverlaps hopen
  · exact fun s hs => (hall s hs).2.1
  · exact fun s hs => (hall s hs).2.2
  · rfl

end TradeEngine.Calendar
