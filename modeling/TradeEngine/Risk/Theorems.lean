import TradeEngine.Lib.Except
import TradeEngine.Risk.Hours

/-!
# The trading-hours rail and the exchange's sessions

The rail compares times of day after it has chosen the session by the configured zone's date. It
keeps to the sessions exactly where the zone shows them on their own dates, or shows what it takes
for them inside another session.
-/

namespace TradeEngine.Risk

open Lib

/-! ## Clocks -/

theorem clock_eq (x : Int) : x = dayOf x * dayMicros + timeOf x := by
  unfold dayOf timeOf
  rw [mul_comm]
  exact (Int.mul_ediv_add_emod x dayMicros).symm

/-- Times of day compare as clocks do, once both are read on one day. -/
theorem timeOf_le_iff {x y k : Int} (h : dayOf x = dayOf y + k) :
    timeOf x ≤ timeOf y ↔ x ≤ y + k * dayMicros := by
  have hx := clock_eq x
  have hy := clock_eq y
  rw [h, add_mul] at hx
  omega

theorem timeOf_lt_iff {x y k : Int} (h : dayOf y = dayOf x + k) :
    timeOf x < timeOf y ↔ x + k * dayMicros < y := by
  have hx := clock_eq x
  have hy := clock_eq y
  rw [h, add_mul] at hy
  omega

/-! ## Sessions -/

/-- The session of a date, with its open and close. -/
structure Session (w : World) (d opened closed : Int) : Prop where
  isSession : w.isSession d = .ok true
  opens : w.sessionOpen d = .ok opened
  closes : w.sessionClose d = .ok closed

def InSession (w : World) (t : Int) : Prop :=
  ∃ d opened closed, Session w d opened closed ∧ opened ≤ t ∧ t < closed

/-- The rail reports open only inside sessions. -/
def Hours.KeepsToSessions (w : World) (h : Hours) : Prop := ∀ t, h.isOpen w t = .ok true → InSession w t

variable {w : World} {h : Hours}

/-- Whether the zone shows an instant on a date, inside the window, between the times of day of the
session's open and close. -/
structure Hours.Shows (h : Hours) (d opened closed t : Int) : Prop where
  date : dayOf (h.timezone.clock t) = d
  window : h.opens ≤ timeOf (h.timezone.clock t) ∧ timeOf (h.timezone.clock t) < h.closes
  after : timeOf (h.timezone.clock opened) ≤ timeOf (h.timezone.clock t)
  before : timeOf (h.timezone.clock t) < timeOf (h.timezone.clock closed)

theorem mapError_ok {α : Type} {x : Except String α} {a : α} :
    x.mapError RiskError.value = .ok a ↔ x = .ok a := by
  cases x <;> simp [Except.mapError]

theorem isOpen_iff {t : Int} : h.isOpen w t = .ok true ↔ w.hasDate t = true ∧
    ∃ d opened closed, weekdayOf d ∈ h.weekdays ∧ Session w d opened closed ∧ h.Shows d opened closed t := by
  unfold Hours.isOpen
  dsimp only
  constructor
  · intro hopen
    split_ifs at hopen with hdate hday
    · simp only [bind_eq_ok, mapError_ok] at hopen
      obtain ⟨session, hsession, hopen⟩ := hopen
      split_ifs at hopen with hs
      · subst hs
        simp only [bind_eq_ok, mapError_ok, pure_eq_ok, decide_eq_true_eq, max_le_iff, lt_min_iff] at hopen
        obtain ⟨opened, ho, closed, hc, ⟨hwo, hso⟩, hwc, hsc⟩ := hopen
        exact ⟨hdate, _, opened, closed, hday, ⟨hsession, ho, hc⟩, rfl, ⟨hwo, hwc⟩, hso, hsc⟩
      · cases hopen
    · cases hopen
    · cases hopen
  · rintro ⟨hdate, d, opened, closed, hday, hs, hshown⟩
    obtain ⟨rfl, ⟨hwo, hwc⟩, hso, hsc⟩ := hshown
    rw [if_pos hdate, if_pos hday]
    simp only [bind_eq_ok, mapError_ok]
    refine ⟨true, hs.isSession, ?_⟩
    simp only [if_true, bind_eq_ok, mapError_ok, pure_eq_ok, decide_eq_true_eq, max_le_iff, lt_min_iff]
    exact ⟨opened, hs.opens, closed, hs.closes, ⟨hwo, hso⟩, hwc, hsc⟩

/-- Accepted hours are in the zone that their document names. -/
theorem fromRaw_zone {raw : RawHours} (hraw : Hours.fromRaw w (some raw) = .ok h) :
    ∃ name, raw.timezone = .str name ∧ w.zones name = some h.timezone := by
  simp only [Hours.fromRaw, bind_eq_ok] at hraw
  obtain ⟨tz, htz, weekdays, -, hraw⟩ := hraw
  have hsame : h.timezone = tz := by
    split at hraw
    · split_ifs at hraw
      · cases hraw
      · obtain ⟨_, -, hraw⟩ := bind_eq_ok.mp hraw
        cases hraw
        rfl
      all_goals cases hraw
    · cases hraw
  rw [hsame]
  split at htz
  · rename_i name hname
    refine ⟨name, hname, ?_⟩
    cases hz : w.zones name with
    | none => rw [hz] at htz; cases htz
    | some tz' => rw [hz] at htz; cases htz; rfl
  · cases htz

/-- The zone shows a session on its own date, and only its instants between its open and close. -/
structure Tz.Faithful (tz : Tz) (d opened closed : Int) : Prop where
  opens : dayOf (tz.clock opened) = d
  closes : dayOf (tz.clock closed) = d
  between : ∀ t, tz.clock opened ≤ tz.clock t → tz.clock t < tz.clock closed → opened ≤ t ∧ t < closed

/-- The zone has one offset at every instant of a session's local date and at its open and close. -/
def Tz.Steady (tz : Tz) (w : World) : Prop :=
  ∀ d opened closed t, Session w d opened closed → dayOf (tz.clock t) = d →
    tz.clock opened - opened = tz.clock t - t ∧ tz.clock closed - closed = tz.clock t - t

/-- An instant shown between the open and close of a faithful session is in it. -/
theorem Tz.Faithful.mem {d opened closed t : Int} (hf : h.timezone.Faithful d opened closed)
    (hs : h.Shows d opened closed t) : opened ≤ t ∧ t < closed := by
  have ho : dayOf (h.timezone.clock opened) = dayOf (h.timezone.clock t) + 0 := by
    rw [hf.opens, hs.date, add_zero]
  have hc : dayOf (h.timezone.clock closed) = dayOf (h.timezone.clock t) + 0 := by
    rw [hf.closes, hs.date, add_zero]
  have hafter := (timeOf_le_iff ho).mp hs.after
  have hbefore := (timeOf_lt_iff hc).mp hs.before
  rw [zero_mul, add_zero] at hafter hbefore
  exact hf.between t hafter hbefore

/-- In a steady zone, what is shown of a session is the session moved by whole days. -/
theorem Tz.Steady.moved {d opened closed t : Int} (hz : h.timezone.Steady w)
    (hs : Session w d opened closed) (hlong : opened < closed ∧ closed < opened + dayMicros)
    (hshown : h.Shows d opened closed t) :
    ∃ k, dayOf (h.timezone.clock opened) = d + k ∧ dayOf (h.timezone.clock closed) = d + k ∧
      opened ≤ t + k * dayMicros ∧ t + k * dayMicros < closed := by
  obtain ⟨hoffset, hoffset'⟩ := hz d opened closed t hs hshown.date
  obtain ⟨k, hk⟩ : ∃ k, dayOf (h.timezone.clock opened) = d + k := ⟨_, (add_sub_cancel d _).symm⟩
  obtain ⟨k', hk'⟩ : ∃ k', dayOf (h.timezone.clock closed) = d + k' := ⟨_, (add_sub_cancel d _).symm⟩
  have hafter := (timeOf_le_iff (hshown.date ▸ hk)).mp hshown.after
  have hbefore := (timeOf_lt_iff (hshown.date ▸ hk')).mp hshown.before
  -- the close is not on an earlier date than the open, nor, the session being short, on a later one
  have hdates : dayOf (h.timezone.clock opened) ≤ dayOf (h.timezone.clock closed) :=
    Int.ediv_le_ediv (by decide) (by omega)
  obtain rfl : k' = k := by
    unfold dayMicros at hlong hafter hbefore
    omega
  exact ⟨k', hk, hk', by omega, by omega⟩

theorem Tz.Steady.shows {d opened closed t k : Int} (hz : h.timezone.Steady w)
    (hs : Session w d opened closed) (hdate : dayOf (h.timezone.clock t) = d)
    (hwindow : h.opens ≤ timeOf (h.timezone.clock t) ∧ timeOf (h.timezone.clock t) < h.closes)
    (ho : dayOf (h.timezone.clock opened) = d + k) (hc : dayOf (h.timezone.clock closed) = d + k)
    (hafter : opened ≤ t + k * dayMicros) (hbefore : t + k * dayMicros < closed) :
    h.Shows d opened closed t := by
  obtain ⟨hoffset, hoffset'⟩ := hz d opened closed t hs hdate
  refine ⟨hdate, hwindow, (timeOf_le_iff (hdate ▸ ho)).mpr ?_, (timeOf_lt_iff (hdate ▸ hc)).mpr ?_⟩
  · omega
  · omega

/-- A session that the zone shows `k` days from its date lets in the instants `k` days before it. -/
structure Hours.Misplaced (w : World) (h : Hours) (d opened closed k t : Int) : Prop where
  moved : k ≠ 0
  opens : dayOf (h.timezone.clock opened) = d + k
  closes : dayOf (h.timezone.clock closed) = d + k
  hasDate : w.hasDate t = true
  date : dayOf (h.timezone.clock t) = d
  window : h.opens ≤ timeOf (h.timezone.clock t) ∧ timeOf (h.timezone.clock t) < h.closes
  after : opened ≤ t + k * dayMicros
  before : t + k * dayMicros < closed

/-- The rail keeps to the sessions exactly when every instant that the zone shows on a session's date,
in the window and between the times of day of its open and close, is in a session. It does where the
zone shows the sessions faithfully; and in a zone with one offset on each session's date, exactly when
no instant outside the sessions is taken for one of a session that the zone shows on another date. -/
theorem hours_keep_to_sessions_iff (w : World) (raw : Option RawHours) {h : Hours}
    (_ : Hours.fromRaw w raw = .ok h) :
    (h.KeepsToSessions w ↔ ∀ d opened closed t, weekdayOf d ∈ h.weekdays → Session w d opened closed →
      w.hasDate t = true → h.Shows d opened closed t → InSession w t) ∧
    ((∀ d opened closed, weekdayOf d ∈ h.weekdays → Session w d opened closed →
      h.timezone.Faithful d opened closed) → h.KeepsToSessions w) ∧
    (h.timezone.Steady w → (∀ d opened closed, Session w d opened closed →
        opened < closed ∧ closed < opened + dayMicros) →
      (h.KeepsToSessions w ↔ ∀ d opened closed k t, weekdayOf d ∈ h.weekdays →
        Session w d opened closed → h.Misplaced w d opened closed k t → InSession w t)) := by
  have hiff : h.KeepsToSessions w ↔ ∀ d opened closed t, weekdayOf d ∈ h.weekdays →
      Session w d opened closed → w.hasDate t = true → h.Shows d opened closed t → InSession w t := by
    constructor
    · intro hkeeps d opened closed t hday hs hdate hshown
      exact hkeeps t (isOpen_iff.mpr ⟨hdate, d, opened, closed, hday, hs, hshown⟩)
    · intro hall t hopen
      obtain ⟨hdate, d, opened, closed, hday, hs, hshown⟩ := isOpen_iff.mp hopen
      exact hall d opened closed t hday hs hdate hshown
  refine ⟨hiff, fun hfaithful => ?_, fun hz hlong => ?_⟩
  · rw [hiff]
    intro d opened closed t hday hs _ hshown
    exact ⟨d, opened, closed, hs, (hfaithful d opened closed hday hs).mem hshown⟩
  · rw [hiff]
    constructor
    · intro hall d opened closed k t hday hs hm
      exact hall d opened closed t hday hs hm.hasDate
        (hz.shows hs hm.date hm.window hm.opens hm.closes hm.after hm.before)
    · intro hall d opened closed t hday hs hdate hshown
      obtain ⟨k, ho, hc, hafter, hbefore⟩ := hz.moved hs (hlong d opened closed hs) hshown
      by_cases hk : k = 0
      · subst hk
        rw [zero_mul, add_zero] at hafter hbefore
        exact ⟨d, opened, closed, hs, hafter, hbefore⟩
      · exact hall d opened closed k t hday hs
          ⟨hk, ho, hc, hdate, hshown.date, hshown.window, hafter, hbefore⟩

namespace Sample

def hourMicros : Int := 3600000000

/-- Two weeks of July 2026, all ten weekdays of them sessions, from 13:30 to 20:00 UTC. -/
def july : World where
  zones name :=
    if name = "America/New_York" then some ⟨(· - 4 * hourMicros)⟩
    else if name = "Pacific/Noumea" then some ⟨(· + 11 * hourMicros)⟩
    else none
  hasDate _ := true
  isSession d := if 20640 ≤ d ∧ d < 20654 then .ok (weekdayOf d < 5) else .error "out of range"
  sessionOpen d := .ok (d * dayMicros + 27 * 1800000000)
  sessionClose d := .ok (d * dayMicros + 20 * hourMicros)

/-- Every weekday and the whole day, in a zone. -/
def always (zone : String) : RawHours :=
  ⟨.str zone, some [.int 0, .int 1, .int 2, .int 3, .int 4], .micros 0, .micros (24 * hourMicros - 1), .str "XNYS"⟩

/-- Sunday 12 July 2026, 16:00 UTC. -/
def sunday : Int := 20646 * dayMicros + 16 * hourMicros

theorem july_session {d opened closed : Int} (h : Session july d opened closed) :
    weekdayOf d < 5 ∧ opened = d * dayMicros + 27 * 1800000000 ∧
      closed = d * dayMicros + 20 * hourMicros := by
  obtain ⟨hsession, ho, hc⟩ := h
  cases ho
  cases hc
  simp only [july] at hsession
  split_ifs at hsession
  · simp only [Except.ok.injEq, decide_eq_true_eq] at hsession
    exact ⟨hsession, rfl, rfl⟩

end Sample

/-- In New York the sessions are shown on their own dates, and the rail keeps to them. -/
theorem hours_keep_to_sessions_new_york :
    ∃ h, Hours.fromRaw Sample.july (some (Sample.always "America/New_York")) = .ok h ∧
      h.KeepsToSessions Sample.july := by
  have hok : (Hours.fromRaw Sample.july (some (Sample.always "America/New_York"))).isOk = true := by
    decide +kernel
  cases hraw : Hours.fromRaw Sample.july (some (Sample.always "America/New_York")) with
  | error e => rw [hraw] at hok; cases hok
  | ok h =>
      refine ⟨h, rfl, ((hours_keep_to_sessions_iff Sample.july _ hraw).2.1 ?_)⟩
      obtain ⟨name, hname, hzone⟩ := fromRaw_zone hraw
      cases hname
      have hzone : h.timezone = ⟨(· - 4 * Sample.hourMicros)⟩ := (Option.some.inj hzone).symm
      intro d opened closed _ hs
      obtain ⟨-, rfl, rfl⟩ := Sample.july_session hs
      rw [hzone]
      simp only [Sample.hourMicros, dayMicros]
      refine ⟨?_, ?_, fun t => ?_⟩
      · simp only [dayOf, dayMicros]
        omega
      · simp only [dayOf, dayMicros]
        omega
      · dsimp only
        omega

/-- At UTC+11 a Sunday afternoon is Monday morning, and the hours of Monday's session are shown as
those of the morning after: the rail is open, and no session is. -/
theorem open_on_sunday :
    ∃ h, Hours.fromRaw Sample.july (some (Sample.always "Pacific/Noumea")) = .ok h ∧
      h.isOpen Sample.july Sample.sunday = .ok true ∧ ¬ InSession Sample.july Sample.sunday := by
  have hopen : (Hours.fromRaw Sample.july (some (Sample.always "Pacific/Noumea"))).toOption.map
      (·.isOpen Sample.july Sample.sunday) = some (.ok true) := by decide +kernel
  obtain ⟨h, hraw, hopen⟩ := Option.map_eq_some_iff.mp hopen
  refine ⟨h, toOption_eq_some.mp hraw, hopen, ?_⟩
  rintro ⟨d, opened, closed, hs, hafter, hbefore⟩
  obtain ⟨hday, rfl, rfl⟩ := Sample.july_session hs
  simp only [Sample.sunday, Sample.hourMicros, dayMicros, weekdayOf] at hday hafter hbefore
  omega

end TradeEngine.Risk
