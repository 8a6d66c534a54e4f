import TradeEngine.Calendar.Lemmas.Rows
import TradeEngine.Calendar.Theorems

/-!
# The order of the rows

An open is set by the last row in the file among those since the previous trade date; it is the same for every order of the
rows exactly when these rows agree.
-/

namespace TradeEngine.Calendar

open Lib

variable {C : Chrono}

/-! ## What the rows say of an open -/

def readingOf (rows : List HolidayRow) : Reading := rows.foldl Reading.add Reading.start

/-- A trade date of the table: a weekday of its years that no row closes. -/
def TradeDay (rows : List HolidayRow) (d : NaiveDate) : Prop :=
  ((readingOf rows).minYear ≤ d.year ∧ d.year ≤ (readingOf rows).maxYear) ∧ isWeekend d = false ∧
    ∀ r ∈ rows, r.date = d → r.status ≠ .closed

/-- The trade date is the first after the row's date. -/
def Waits (rows : List HolidayRow) (td : NaiveDate) (r : HolidayRow) : Prop :=
  r.date < td ∧ ∀ t, TradeDay rows t → r.date < t → td ≤ t

def reopenOf (r : HolidayRow) : Option (NaiveDate × Nat) :=
  match r.reopenDate, r.reopenTime with
  | some rd, some rt => some (rd, rt)
  | _, _ => none

/-- The reopening where there is one, else 18:00 the evening before. -/
def openFrom (C : Chrono) (td : NaiveDate) : Option (NaiveDate × Nat) → Except Fault Int
  | some o => nyTimeToUtc C o.1 o.2
  | none => do
    let evening ← previousDay td
    nyToUtc C evening (18, 0)

/-- Where the session of a trade date opens if a row decides it. -/
def opensAt (C : Chrono) (td : NaiveDate) (r : HolidayRow) : Except Fault Int := openFrom C td (reopenOf r)

/-- Rows before one trade date open it alike. -/
def RowsAgree (C : Chrono) (rows : List HolidayRow) : Prop :=
  ∀ td, TradeDay rows td → ∀ r₁ ∈ rows, ∀ r₂ ∈ rows, Waits rows td r₁ → Waits rows td r₂ →
    opensAt C td r₁ = opensAt C td r₂

theorem openOf_eq (overrides : List (NaiveDate × NaiveDate × Nat)) (td : NaiveDate) :
    openOf C overrides td = openFrom C td (overrides.lookup td) := by
  unfold openOf openFrom
  cases overrides.lookup td with
  | none => rfl
  | some o => rfl

theorem reopening_eq (rows : List HolidayRow) (p td : NaiveDate) :
    reopening rows p td = (rows.filter fun r => p ≤ r.date ∧ r.date < td).getLast?.bind reopenOf := by
  unfold reopening reopenOf
  cases (rows.filter fun r => decide (p ≤ r.date ∧ r.date < td)).getLast? with
  | none => rfl
  | some h => rfl

theorem lookup_overridesFrom_of_notMem {rows : List HolidayRow} {p d : NaiveDate} {tds : List NaiveDate} (h : d ∉ tds) :
    (overridesFrom rows p tds).lookup d = none := by
  induction tds generalizing p with
  | nil => rfl
  | cons t tds ih =>
    rw [List.mem_cons, not_or] at h
    rw [overridesFrom]
    cases reopening rows p t with
    | none => exact ih h.2
    | some o => rw [List.lookup_cons, beq_eq_false_iff_ne.2 h.1, ih h.2]

/-- A trade date's override is looked for since the one before it. -/
theorem lookup_overridesFrom (rows : List HolidayRow) {p td : NaiveDate} {tds : List NaiveDate}
    (hs : (p :: tds).Pairwise (· < ·)) (htd : td ∈ tds) : ∃ q ∈ p :: tds, q < td ∧ (∀ t ∈ tds, q < t → td ≤ t) ∧
      (overridesFrom rows p tds).lookup td = reopening rows q td := by
  induction tds generalizing p with
  | nil => cases htd
  | cons t tds ih =>
    obtain ⟨hp, hs⟩ := List.pairwise_cons.1 hs
    have ht := (List.pairwise_cons.1 hs).1
    by_cases heq : td = t
    · subst heq
      refine ⟨p, by simp, hp td (by simp), ?_, ?_⟩
      · intro x hx _
        rcases List.mem_cons.1 hx with rfl | hx
        · exact le_rfl
        · exact (ht x hx).le
      · rw [overridesFrom]
        cases hr : reopening rows p td with
        | none => exact lookup_overridesFrom_of_notMem fun hmem => lt_irrefl td (ht td hmem)
        | some o => rw [List.lookup_cons, beq_self_eq_true]
    · have htd' : td ∈ tds := (List.mem_cons.1 htd).resolve_left heq
      obtain ⟨q, hq, hlt, hnext, hlookup⟩ := ih hs htd'
      refine ⟨q, List.mem_cons_of_mem p hq, hlt, ?_, ?_⟩
      · intro x hx hqx
        rcases List.mem_cons.1 hx with rfl | hx
        · rcases List.mem_cons.1 hq with rfl | hq
          · exact absurd hqx (lt_irrefl _)
          · exact absurd (hqx.trans (ht q hq)) (lt_irrefl _)
        · exact hnext x hx hqx
      · rw [← hlookup, overridesFrom]
        cases reopening rows p t with
        | none => rfl
        | some o => rw [List.lookup_cons, beq_eq_false_iff_ne.2 heq]

/-! ## What is built from the rows -/

variable {rows rows' : List HolidayRow} {eras : List Era} {table : HolidayTable} {o : List (NaiveDate × NaiveDate × Nat)}

def firstOf (rows : List HolidayRow) : NaiveDate := .ymd (readingOf rows).minYear 1 1

def lastOf (rows : List HolidayRow) : NaiveDate := .ymd (readingOf rows).maxYear 12 31

/-- The trade dates of the rows and the opens that rows override. -/
structure Dates (rows : List HolidayRow) (tds : List NaiveDate) (o : List (NaiveDate × NaiveDate × Nat)) : Prop where
  tradeDates : tradeDatesOf (readingOf rows).holidays (firstOf rows) (lastOf rows) = .ok tds
  overrides : openOverrides rows (firstOf rows) tds = .ok o

/-- The steps from the rows to the table. -/
structure Builds (C : Chrono) (eras : List Era) (rows : List HolidayRow) (o : List (NaiveDate × NaiveDate × Nat))
    (table : HolidayTable) : Prop where
  dates : Dates rows table.tradeDates o
  sessions : table.tradeDates.mapM (buildSession C eras (readingOf rows).holidays o) = .ok table.sessions
  overlaps : checkOverlaps C table.sessions = .ok ()

theorem parse_builds {text : List Char} (h : parseHolidayTableEras C text eras = .ok table) :
    Reads C text table.rows ∧ ∃ o, Builds C eras table.rows o table := by
  obtain ⟨r, hr, h⟩ := bind_eq_ok.1 h
  obtain ⟨rows, hreads, rfl⟩ := readTable_ok.1 hr
  obtain ⟨tds, htds, h⟩ := bind_eq_ok.1 h
  obtain ⟨o, ho, h⟩ := bind_eq_ok.1 h
  obtain ⟨sessions, hsessions, h⟩ := bind_eq_ok.1 h
  obtain ⟨_, hoverlaps, h⟩ := bind_eq_ok.1 h
  have hrows : (rows.foldl Reading.add Reading.start).rows = rows := foldl_add_rows rows _
  have htable := pure_eq_ok.1 h
  rw [hrows] at ho htable
  subst htable
  exact ⟨hreads, o, ⟨htds, ho⟩, hsessions, hoverlaps⟩

theorem builds_parse {text : List Char} {tds : List NaiveDate} {sessions : List SessionInfo} (hreads : Reads C text rows)
    (hdates : Dates rows tds o) (hs : tds.mapM (buildSession C eras (readingOf rows).holidays o) = .ok sessions)
    (hoverlaps : checkOverlaps C sessions = .ok ()) :
    ∃ table, parseHolidayTableEras C text eras = .ok table ∧ table.tradeDates = tds ∧ table.sessions = sessions := by
  have hrows : (readingOf rows).rows = rows := foldl_add_rows rows _
  refine ⟨⟨rows, (readingOf rows).holidays, firstOf rows, lastOf rows, tds, sessions, sessionMapOf sessions⟩, ?_, rfl, rfl⟩
  have hread : readTable C text = .ok (readingOf rows) := readTable_ok.2 ⟨rows, hreads, rfl⟩
  unfold parseHolidayTableEras
  rw [hread, ok_bind]
  change tradeDatesOf (readingOf rows).holidays (firstOf rows) (lastOf rows) >>= _ = _
  rw [hdates.tradeDates, ok_bind, hrows]
  change openOverrides rows (firstOf rows) tds >>= _ = _
  rw [hdates.overrides, ok_bind, hs, ok_bind, hoverlaps, ok_bind]
  rfl

theorem buildSession_open {holidays : NaiveDate → Option HolidayRow} {overrides : List (NaiveDate × NaiveDate × Nat)}
    {td : NaiveDate} {s : SessionInfo} (h : buildSession C eras holidays overrides td = .ok s) :
    s.tradeDate = td ∧ openOf C overrides td = .ok s.openUtc := by
  obtain ⟨opens, hopens, h⟩ := bind_eq_ok.1 h
  obtain ⟨close, -, h⟩ := bind_eq_ok.1 h
  obtain ⟨halt, -, h⟩ := bind_eq_ok.1 h
  split_ifs at h
  · cases h
  · cases h
    exact ⟨rfl, hopens⟩

/-! ## Years and holidays of reordered rows -/

theorem le_foldl_min {y b : Int} :
    (b ≤ rows.foldl (fun y row => min y row.date.year) y) ↔ b ≤ y ∧ ∀ r ∈ rows, b ≤ r.date.year := by
  induction rows generalizing y with
  | nil => simp
  | cons r rows ih => simp [ih, and_assoc]

theorem minYear_perm (h : rows'.Perm rows) : (readingOf rows').minYear = (readingOf rows).minYear := by
  unfold readingOf
  rw [foldl_add_minYear, foldl_add_minYear]
  apply h.foldl_eq'
  intro x _ y _ z
  omega

theorem maxYear_perm (h : rows'.Perm rows) : (readingOf rows').maxYear = (readingOf rows).maxYear := by
  unfold readingOf
  rw [foldl_add_maxYear, foldl_add_maxYear]
  apply h.foldl_eq'
  intro x _ y _ z
  omega

theorem holidays_eq_some (hd : (rows.map (·.date)).Nodup) {d : NaiveDate} {r : HolidayRow} :
    (readingOf rows).holidays d = some r ↔ r ∈ rows ∧ r.date = d := by
  unfold readingOf
  rw [foldl_add_holidays hd]
  simp [Reading.start]

theorem holidays_perm (h : rows'.Perm rows) (hd : (rows.map (·.date)).Nodup) :
    (readingOf rows').holidays = (readingOf rows).holidays := by
  have hd' : (rows'.map (·.date)).Nodup := (h.map _).nodup_iff.2 hd
  funext d
  apply Option.ext
  intro r
  rw [holidays_eq_some hd', holidays_eq_some hd, h.mem_iff]

theorem ymd_first (y : Int) : (NaiveDate.ymd y 1 1).numDaysFromCe = yearStart y + 1 := by
  have hymd : NaiveDate.ymd y 1 1 = ⟨y, 1, 1, ⟨le_rfl, by norm_num⟩, le_rfl, daysInMonth_pos y 1⟩ := by
    unfold NaiveDate.ymd
    split_ifs <;> rfl
  rw [hymd, numDaysFromCe_eq]
  simp [daysBefore]

theorem ymd_last (y : Int) : (NaiveDate.ymd y 12 31).numDaysFromCe = yearStart (y + 1) := by
  have hdec : daysInMonth y 12 = 31 := rfl
  have hymd : NaiveDate.ymd y 12 31 = ⟨y, 12, 31, ⟨by norm_num, le_rfl⟩, by norm_num, hdec.ge⟩ := by
    unfold NaiveDate.ymd
    rw [dif_pos ⟨⟨by norm_num, le_rfl⟩, by norm_num, hdec.ge⟩]
  rw [hymd, numDaysFromCe_eq, yearStart_succ]
  simp

theorem first_le_iff {y : Int} {d : NaiveDate} : NaiveDate.ymd y 1 1 ≤ d ↔ y ≤ d.year := by
  have hd := numDaysFromCe_mem d
  rw [le_iff, ymd_first]
  constructor
  · intro h
    by_contra hlt
    have := yearStart_mono (Int.add_one_le_of_lt (not_le.1 hlt))
    omega
  · intro h
    have := yearStart_mono h
    omega

theorem le_last_iff {y : Int} {d : NaiveDate} : d ≤ NaiveDate.ymd y 12 31 ↔ d.year ≤ y := by
  have hd := numDaysFromCe_mem d
  rw [le_iff, ymd_last]
  constructor
  · intro h
    by_contra hlt
    have := yearStart_mono (Int.add_one_le_of_lt (not_le.1 hlt))
    omega
  · intro h
    have := yearStart_mono (Int.add_le_add_right h 1)
    omega

theorem isClosedRow_eq_false (hd : (rows.map (·.date)).Nodup) {d : NaiveDate} :
    isClosedRow ((readingOf rows).holidays d) = false ↔ ∀ r ∈ rows, r.date = d → r.status ≠ .closed := by
  have hclosed : isClosedRow ((readingOf rows).holidays d) = true ↔ ∃ r ∈ rows, r.date = d ∧ r.status = .closed := by
    unfold isClosedRow
    rw [decide_eq_true_eq, Option.map_eq_some_iff]
    simp only [holidays_eq_some hd, and_assoc]
  rw [← Bool.not_eq_true, hclosed]
  push Not
  rfl

theorem mem_tradeDates_iff (hd : (rows.map (·.date)).Nodup) {tds : List NaiveDate}
    (h : tradeDatesOf (readingOf rows).holidays (firstOf rows) (lastOf rows) = .ok tds) (d : NaiveDate) :
    d ∈ tds ↔ TradeDay rows d := by
  rw [mem_tradeDatesOf h, firstOf, lastOf, first_le_iff, le_last_iff, isClosedRow_eq_false hd]
  rfl

theorem tradeDay_perm (h : rows'.Perm rows) (d : NaiveDate) : TradeDay rows' d ↔ TradeDay rows d := by
  unfold TradeDay
  simp only [minYear_perm h, maxYear_perm h, h.mem_iff]

theorem waits_perm (h : rows'.Perm rows) (td : NaiveDate) (r : HolidayRow) : Waits rows' td r ↔ Waits rows td r := by
  unfold Waits
  simp only [tradeDay_perm h]

/-- No row is dated before the table's first year. -/
theorem firstOf_le {r : HolidayRow} (hr : r ∈ rows) : firstOf rows ≤ r.date := by
  rw [firstOf, first_le_iff, readingOf, foldl_add_minYear]
  exact (le_foldl_min.1 le_rfl).2 r hr

theorem previous_lt (d : NaiveDate) : d.previous < d := by
  rw [lt_iff, numDaysFromCe_previous]
  exact sub_one_lt _

/-- The rows that decide a trade date's open are those that wait for it; the last of them in the file does. -/
theorem openOf_waiting (hd : (rows.map (·.date)).Nodup) {tds : List NaiveDate} (h : Dates rows tds o) {td : NaiveDate}
    (htd : td ∈ tds) : ∃ waiting : List HolidayRow, (∀ r, r ∈ waiting ↔ r ∈ rows ∧ Waits rows td r) ∧
      (∀ init r, rows = init ++ [r] → Waits rows td r → waiting.getLast? = some r) ∧
      openOf C o td = openFrom C td (waiting.getLast?.bind reopenOf) := by
  have hsorted := tradeDatesOf_sorted h.tradeDates
  have hmem := mem_tradeDates_iff hd h.tradeDates
  have hge : ∀ d ∈ tds, firstOf rows ≤ d := fun d hd => ((mem_tradeDatesOf h.tradeDates d).1 hd).1.1
  have hover := h.overrides
  unfold openOverrides at hover
  rw [if_neg (by simpa using List.ne_nil_of_mem htd)] at hover
  obtain ⟨before, hbefore, hover⟩ := bind_eq_ok.1 hover
  obtain rfl := (pure_eq_ok.1 hover).symm
  have hbefore' : before < firstOf rows := by
    unfold previousDay at hbefore
    split_ifs at hbefore
    cases hbefore
    exact previous_lt _
  have hchain : (before :: tds).Pairwise (· < ·) :=
    List.pairwise_cons.2 ⟨fun d hd => hbefore'.trans_le (hge d hd), hsorted⟩
  obtain ⟨q, hq, hlt, hnext, hlookup⟩ := lookup_overridesFrom rows hchain htd
  have hwaits : ∀ r ∈ rows, (q ≤ r.date ∧ r.date < td) ↔ Waits rows td r := by
    intro r hr
    constructor
    · rintro ⟨hqr, hrtd⟩
      exact ⟨hrtd, fun t ht hrt => hnext t ((hmem t).2 ht) (hqr.trans_lt hrt)⟩
    · rintro ⟨hrtd, hfirst⟩
      refine ⟨?_, hrtd⟩
      rcases List.mem_cons.1 hq with rfl | hq
      · exact (hbefore'.trans_le (firstOf_le hr)).le
      · by_contra hlate
        exact absurd (hfirst q ((hmem q).1 hq) (not_le.1 hlate)) (not_le.2 hlt)
  refine ⟨rows.filter fun r => q ≤ r.date ∧ r.date < td, ?_, ?_, ?_⟩
  · intro r
    rw [List.mem_filter, decide_eq_true_eq]
    exact and_congr_right fun hr => hwaits r hr
  · intro init r hrows hr
    have hin := (hwaits r (by rw [hrows]; simp)).2 hr
    rw [hrows, List.filter_append, List.filter_cons_of_pos (by simpa using hin), List.filter_nil, List.getLast?_concat]
  · rw [openOf_eq, hlookup, reopening_eq]

/-! ## Every order of the rows -/

/-- Some waiting row opens the session, or none waits and it opens the evening before. -/
theorem openOf_cases (hd : (rows.map (·.date)).Nodup) {tds : List NaiveDate} (h : Dates rows tds o) {td : NaiveDate}
    (htd : td ∈ tds) :
    (∃ r ∈ rows, Waits rows td r ∧ openOf C o td = opensAt C td r) ∨
      ((∀ r ∈ rows, ¬ Waits rows td r) ∧ openOf C o td = openFrom C td none) := by
  obtain ⟨waiting, hmem, -, hopen⟩ := openOf_waiting hd h htd
  cases hlast : waiting.getLast? with
  | none =>
    rw [List.getLast?_eq_none_iff] at hlast
    rw [hlast] at hmem hopen
    exact .inr ⟨fun r hr hw => List.not_mem_nil ((hmem r).2 ⟨hr, hw⟩), hopen⟩
  | some r =>
    obtain ⟨hr, hw⟩ := (hmem r).1 (List.mem_of_getLast? hlast)
    rw [hlast] at hopen
    exact .inl ⟨r, hr, hw, hopen⟩

/-- Rows that agree open every session alike in any order. -/
theorem openOf_perm (hd : (rows.map (·.date)).Nodup) (hp : rows'.Perm rows) (hagree : RowsAgree C rows)
    {o' : List (NaiveDate × NaiveDate × Nat)} {tds : List NaiveDate} (h : Dates rows tds o) (h' : Dates rows' tds o')
    {td : NaiveDate} (htd : td ∈ tds) : openOf C o' td = openOf C o td := by
  have hd' : (rows'.map (·.date)).Nodup := (hp.map _).nodup_iff.2 hd
  have hday := (mem_tradeDates_iff hd h.tradeDates td).1 htd
  rcases openOf_cases hd h htd with ⟨r, hr, hw, hopen⟩ | ⟨hnone, hopen⟩
  · rcases openOf_cases hd' h' htd with ⟨r', hr', hw', hopen'⟩ | ⟨hnone', -⟩
    · rw [hopen, hopen']
      exact hagree td hday r' (hp.mem_iff.1 hr') r hr ((waits_perm hp td r').1 hw') hw
    · exact absurd ((waits_perm hp td r).2 hw) (hnone' r (hp.mem_iff.2 hr))
  · rcases openOf_cases hd' h' htd with ⟨r', hr', hw', -⟩ | ⟨-, hopen'⟩
    · exact absurd ((waits_perm hp td r').1 hw') (hnone r' (hp.mem_iff.1 hr'))
    · rw [hopen, hopen']

theorem buildSession_congr {holidays : NaiveDate → Option HolidayRow} {o o' : List (NaiveDate × NaiveDate × Nat)}
    {td : NaiveDate} (h : openOf C o' td = openOf C o td) :
    buildSession C eras holidays o' td = buildSession C eras holidays o td := by
  unfold buildSession
  rw [h]

theorem session_open (h : Builds C eras rows o table) {td : NaiveDate} (htd : td ∈ table.tradeDates) :
    ∃ s ∈ table.sessions, s.tradeDate = td ∧ openOf C o td = .ok s.openUtc := by
  obtain ⟨s, hs, hbuild⟩ := forall₂_left (mapM_ok h.sessions) td htd
  exact ⟨s, hs, buildSession_open hbuild⟩

theorem session_date (h : Builds C eras rows o table) {s : SessionInfo} (hs : s ∈ table.sessions) :
    s.tradeDate ∈ table.tradeDates ∧ openOf C o s.tradeDate = .ok s.openUtc := by
  obtain ⟨td, htd, hbuild⟩ := forall₂_right (mapM_ok h.sessions) s hs
  obtain ⟨rfl, hopen⟩ := buildSession_open hbuild
  exact ⟨htd, hopen⟩

/-- A session's open is the one its trade date's rows give. -/
theorem open_unique (h : Builds C eras rows o table) {s s' : SessionInfo} (hs : s ∈ table.sessions) (hs' : s' ∈ table.sessions)
    (hdate : s.tradeDate = s'.tradeDate) : s.openUtc = s'.openUtc := by
  have hopen := (session_date h hs).2
  rw [hdate, (session_date h hs').2] at hopen
  exact (Except.ok.inj hopen).symm

/-- The table means the same in any order of its rows, and the latest row decides each open. -/
structure OrderFree (C : Chrono) (text : List Char) (eras : List Era) (table : HolidayTable) : Prop where
  reordered : ∀ text', Reordered text text' → ∃ table', parseHolidayTableEras C text' eras = .ok table' ∧
    table'.tradeDates = table.tradeDates ∧ table'.sessions = table.sessions
  latest : ∀ s ∈ table.sessions, ∀ r ∈ table.rows, Waits table.rows s.tradeDate r →
    (∀ r' ∈ table.rows, Waits table.rows s.tradeDate r' → r'.date ≤ r.date) → opensAt C s.tradeDate r = .ok s.openUtc

theorem orderFree_of_agree {text : List Char} (h : parseHolidayTableEras C text eras = .ok table)
    (hd : (table.rows.map (·.date)).Nodup) (hagree : RowsAgree C table.rows) : OrderFree C text eras table := by
  obtain ⟨hreads, o, hbuilds⟩ := parse_builds h
  constructor
  · intro text' hreorder
    obtain ⟨rows', hreads', hp⟩ := hreads.perm hreorder
    have hholidays := holidays_perm hp hd
    have hfirst : firstOf rows' = firstOf table.rows := by rw [firstOf, firstOf, minYear_perm hp]
    have hlast : lastOf rows' = lastOf table.rows := by rw [lastOf, lastOf, maxYear_perm hp]
    have htds := hbuilds.dates.tradeDates
    rw [← hholidays, ← hfirst, ← hlast] at htds
    obtain ⟨o', ho'⟩ : ∃ o', openOverrides rows' (firstOf rows') table.tradeDates = .ok o' := by
      have hover := hbuilds.dates.overrides
      rw [hfirst]
      unfold openOverrides at hover ⊢
      split_ifs at hover ⊢
      · exact ⟨_, rfl⟩
      · obtain ⟨before, hbefore, -⟩ := bind_eq_ok.1 hover
        rw [hbefore]
        exact ⟨_, rfl⟩
    -- the sessions do not depend on which of the agreeing rows is the last
    have hsame : ∀ td ∈ table.tradeDates, openOf C o' td = openOf C o td := by
      exact fun td htd => openOf_perm hd hp hagree hbuilds.dates ⟨htds, ho'⟩ htd
    have hsessions : table.tradeDates.mapM (buildSession C eras (readingOf rows').holidays o') = .ok table.sessions := by
      rw [← hbuilds.sessions, hholidays]
      exact mapM_congr fun td htd => buildSession_congr (hsame td htd)
    exact builds_parse hreads' ⟨htds, ho'⟩ hsessions hbuilds.overlaps
  · intro s hs r hr hw _
    obtain ⟨htd, hopen⟩ := session_date hbuilds hs
    rcases openOf_cases hd hbuilds.dates htd with ⟨r', hr', hw', hopen'⟩ | ⟨hnone, -⟩
    · rw [← hopen, hopen']
      exact hagree s.tradeDate ((mem_tradeDates_iff hd hbuilds.dates.tradeDates _).1 htd) r hr r' hr' hw hw'
    · exact absurd hw (hnone r hr)

/-- The row at the end of the file opens the session it waits for. -/
theorem open_of_last {text : List Char} {init : List HolidayRow} {r : HolidayRow} (hreads : Reads C text (init ++ [r]))
    (h : parseHolidayTableEras C text eras = .ok table) (hd : (table.rows.map (·.date)).Nodup) {td : NaiveDate}
    (hday : TradeDay table.rows td) (hw : Waits table.rows td r) :
    ∃ s ∈ table.sessions, s.tradeDate = td ∧ opensAt C td r = .ok s.openUtc := by
  obtain ⟨hreads', o, hbuilds⟩ := parse_builds h
  have hrows := hreads'.unique hreads
  have htd := (mem_tradeDates_iff hd hbuilds.dates.tradeDates td).2 hday
  obtain ⟨waiting, -, hlast, hopen⟩ := openOf_waiting hd hbuilds.dates htd
  obtain ⟨s, hs, hdate, hs'⟩ := session_open hbuilds htd
  refine ⟨s, hs, hdate, ?_⟩
  rw [← hs', hopen, hlast init r hrows hw]
  rfl

theorem agree_of_orderFree {text : List Char} (h : parseHolidayTableEras C text eras = .ok table)
    (hd : (table.rows.map (·.date)).Nodup) (hfree : OrderFree C text eras table) : RowsAgree C table.rows := by
  obtain ⟨hreads, o, hbuilds⟩ := parse_builds h
  -- each row opens the session when it is moved to the end of the file
  have hopen : ∀ td, TradeDay table.rows td → ∀ r ∈ table.rows, Waits table.rows td r →
      ∃ s ∈ table.sessions, s.tradeDate = td ∧ opensAt C td r = .ok s.openUtc := by
    intro td hday r hr hw
    obtain ⟨text', init, hreorder, hreads'⟩ := exists_last hreads hr
    obtain ⟨table', htable', -, hsessions⟩ := hfree.reordered text' hreorder
    obtain ⟨hreads'', o', hbuilds'⟩ := parse_builds htable'
    obtain ⟨rows', hrows', hp⟩ := hreads.perm hreorder
    obtain rfl := hrows'.unique hreads''
    rw [← hsessions]
    exact open_of_last hreads' htable' ((hp.map _).nodup_iff.2 hd) ((tradeDay_perm hp td).2 hday) ((waits_perm hp td r).2 hw)
  intro td hday r₁ hr₁ r₂ hr₂ hw₁ hw₂
  obtain ⟨s₁, hs₁, hdate₁, hopen₁⟩ := hopen td hday r₁ hr₁ hw₁
  obtain ⟨s₂, hs₂, hdate₂, hopen₂⟩ := hopen td hday r₂ hr₂ hw₂
  rw [hopen₁, hopen₂, open_unique hbuilds hs₁ hs₂ (hdate₁.trans hdate₂.symm)]

theorem row_order_iff (C : Chrono) (text : List Char) (eras : List Era) (table : HolidayTable)
    (h : parseHolidayTableEras C text eras = .ok table) (hd : (table.rows.map (·.date)).Nodup) :
    OrderFree C text eras table ↔ RowsAgree C table.rows :=
  ⟨agree_of_orderFree h hd, orderFree_of_agree h hd⟩

namespace Sample

/-- Christmas 2009, the reopening on the Monday after moved to the morning. -/
def christmas : List Char :=
  "date,status,halt_et,reopen_et\n2009-12-24,early_halt,13:15,\n2009-12-25,closed,,2009-12-28 05:00".toList

def eve : HolidayRow := ⟨.ymd 2009 12 24, .earlyHalt, some 47700, none, none, [], [], []⟩

def day : HolidayRow := ⟨.ymd 2009 12 25, .closed, none, some (.ymd 2009 12 28), some 18000, [], [], []⟩

theorem christmas_reads : Reads newYork christmas [eve, day] := by
  refine ⟨"date,status,halt_et,reopen_et".toList, ["2009-12-24,early_halt,13:15,".toList,
    "2009-12-25,closed,,2009-12-28 05:00".toList], by decide +kernel, ?_, by simp, ?_⟩
  · exact toOption_eq_some.1 (by decide +kernel)
  · have hfilter : ["2009-12-24,early_halt,13:15,".toList, "2009-12-25,closed,,2009-12-28 05:00".toList].filter
        (isBlank · = false) = ["2009-12-24,early_halt,13:15,".toList, "2009-12-25,closed,,2009-12-28 05:00".toList] := by
      decide +kernel
    rw [hfilter]
    exact .cons (by decide +kernel) (.cons (by decide +kernel) .nil)

theorem christmas_accepted : ∃ table, parseHolidayTableEras newYork christmas [] = .ok table ∧ table.rows = [eve, day] := by
  have hsome : (parseHolidayTableEras newYork christmas []).toOption.isSome = true := by decide +kernel
  obtain ⟨table, htable⟩ := Option.isSome_iff_exists.1 hsome
  have hok := toOption_eq_some.1 htable
  exact ⟨table, hok, (parse_builds hok).1.unique christmas_reads⟩

/-- The Monday is the first trade date after either row. -/
theorem waits_monday {r : HolidayRow} (h : 733765 ≤ r.date.numDaysFromCe ∧ r.date.numDaysFromCe ≤ 733766) :
    Waits [eve, day] (.ymd 2009 12 28) r := by
  have hmonday : (NaiveDate.ymd 2009 12 28).numDaysFromCe = 733769 := by decide +kernel
  refine ⟨lt_iff.2 (by omega), fun t ht hlt => ?_⟩
  rw [lt_iff] at hlt
  by_contra hearly
  rw [le_iff, not_le, hmonday] at hearly
  have hdays : ∀ d, ¬ TradeDay [eve, day] d → t.numDaysFromCe ≠ d.numDaysFromCe := by
    intro d hd heq
    exact hd (numDaysFromCe_injective heq ▸ ht)
  have hchristmas := hdays (.ymd 2009 12 25) fun h => h.2.2 day (by simp) rfl rfl
  have hsaturday := hdays (.ymd 2009 12 26) fun h => absurd h.2.1 (by decide +kernel)
  have hsunday := hdays (.ymd 2009 12 27) fun h => absurd h.2.1 (by decide +kernel)
  have hce : (NaiveDate.ymd 2009 12 25).numDaysFromCe = 733766 ∧ (NaiveDate.ymd 2009 12 26).numDaysFromCe = 733767 ∧
      (NaiveDate.ymd 2009 12 27).numDaysFromCe = 733768 := by decide +kernel
  omega

end Sample

/-- With Christmas Eve's row behind that of Christmas, Monday's session opens on Sunday evening. -/
theorem christmas_order : ∃ table, parseHolidayTableEras Sample.newYork Sample.christmas [] = .ok table ∧
    (table.rows.map (·.date)).Nodup ∧ ¬ OrderFree Sample.newYork Sample.christmas [] table := by
  obtain ⟨table, hok, hrows⟩ := Sample.christmas_accepted
  have hd : (table.rows.map (·.date)).Nodup := by
    rw [hrows]
    decide +kernel
  refine ⟨table, hok, hd, fun hfree => ?_⟩
  have hagree := agree_of_orderFree hok hd hfree
  rw [hrows] at hagree
  have hday : TradeDay [Sample.eve, Sample.day] (.ymd 2009 12 28) := by
    unfold TradeDay
    decide +kernel
  have hsame := hagree (.ymd 2009 12 28) hday Sample.eve (by simp) Sample.day (by simp)
    (Sample.waits_monday (by decide +kernel)) (Sample.waits_monday (by decide +kernel))
  have hdiffer : (opensAt Sample.newYork (.ymd 2009 12 28) Sample.eve).toOption ≠
      (opensAt Sample.newYork (.ymd 2009 12 28) Sample.day).toOption := by decide +kernel
  exact hdiffer (congrArg Except.toOption hsame)

theorem row_order_iff_christmas : ∃ table, parseHolidayTableEras Sample.newYork Sample.christmas [] = .ok table ∧
    (OrderFree Sample.newYork Sample.christmas [] table ↔ RowsAgree Sample.newYork [Sample.eve, Sample.day]) := by
  obtain ⟨table, hok, hrows⟩ := Sample.christmas_accepted
  have hd : (table.rows.map (·.date)).Nodup := by
    rw [hrows]
    decide +kernel
  have hiff := row_order_iff _ _ _ table hok hd
  rw [hrows] at hiff
  exact ⟨table, hok, hiff⟩

end TradeEngine.Calendar
