import TradeEngine.Calendar.Lemmas.Globex

/-!
# Lookups in an accepted table

Each lookup of a calendar, in terms of the intervals of the sessions.
-/

namespace TradeEngine.Calendar

open Lib

variable {C : Chrono} {table : HolidayTable}

def SessionInfo.Contains (s : SessionInfo) (t : Int) : Prop := s.openUtc ≤ t ∧ t < s.closeUtc

namespace HolidayTable.Sound

variable (h : table.Sound C)
include h

theorem dates_lt : table.sessions.Pairwise fun a b => a.tradeDate < b.tradeDate := by
  have hsorted := h.sorted
  rw [← h.dates] at hsorted
  exact List.pairwise_map.1 hsorted

theorem mem_tradeDates {s : SessionInfo} (hs : s ∈ table.sessions) : s.tradeDate ∈ table.tradeDates := by
  rw [← h.dates]
  exact List.mem_map_of_mem hs

theorem opens_lt : table.sessions.Pairwise fun a b => a.openUtc < b.openUtc := by
  apply h.ordered.imp_of_mem
  intro a b ha _ hab
  exact (h.opens a ha).trans_le hab

theorem close_le_open {i j : Nat} {a b : SessionInfo} (hij : i < j) (ha : table.sessions[i]? = some a)
    (hb : table.sessions[j]? = some b) : a.closeUtc ≤ b.openUtc := by
  obtain ⟨hi, rfl⟩ := List.getElem?_eq_some_iff.1 ha
  obtain ⟨hj, rfl⟩ := List.getElem?_eq_some_iff.1 hb
  exact List.pairwise_iff_getElem.1 h.ordered i j hi hj hij

/-- No instant is in two sessions. -/
theorem disjoint : table.sessions.Pairwise fun a b => ∀ t, ¬ (a.Contains t ∧ b.Contains t) := by
  apply h.ordered.imp
  rintro a b hab t ⟨ha, hb⟩
  have hlt := ha.2
  have hle := hb.1
  omega

end HolidayTable.Sound

/-! ## The map -/

theorem foldl_insertSession_of_ne {l : List SessionInfo} {m : NaiveDate → Option (Int × Int)} {d : NaiveDate}
    (hl : ∀ a ∈ l, a.tradeDate ≠ d) : (l.foldl insertSession m) d = m d := by
  induction l generalizing m with
  | nil => rfl
  | cons a l ih =>
    rw [List.foldl_cons, ih fun b hb => hl b (List.mem_cons_of_mem a hb), insertSession,
      Function.update_of_ne (hl a List.mem_cons_self).symm]

theorem foldl_insertSession_of_mem {l : List SessionInfo} {m : NaiveDate → Option (Int × Int)} {s : SessionInfo}
    (hl : l.Pairwise fun a b => a.tradeDate < b.tradeDate) (hs : s ∈ l) :
    (l.foldl insertSession m) s.tradeDate = some (s.openUtc, s.closeUtc) := by
  induction l generalizing m with
  | nil => cases hs
  | cons a l ih =>
    obtain ⟨hlt, hl⟩ := List.pairwise_cons.1 hl
    rcases List.mem_cons.1 hs with rfl | hs
    · rw [List.foldl_cons, foldl_insertSession_of_ne fun b hb => (hlt b hb).ne', insertSession, Function.update_self]
    · exact ih hl hs

theorem HolidayTable.Sound.sessionMap_eq (h : table.Sound C) {s : SessionInfo} (hs : s ∈ table.sessions) :
    table.sessionMap s.tradeDate = some (s.openUtc, s.closeUtc) := by
  rw [h.map_eq]
  exact foldl_insertSession_of_mem h.dates_lt hs

/-! ## By instant -/

section Lookup

variable {c : GlobexCalendar} (h : c.table.Sound C) {t : Int}

/-- The instant is in the calendar's range. -/
def GlobexCalendar.InRange (C : Chrono) (c : GlobexCalendar) (t : Int) : Prop :=
  c.first ≤ C.localDate t ∧ C.localDate t ≤ c.last

theorem checkInstant_ok (ht : c.InRange C t) : c.checkInstant C t = .ok () := by
  apply if_neg
  rintro (hlt | hgt)
  · exact absurd ht.1 (not_le.2 hlt)
  · exact absurd ht.2 (not_le.2 hgt)

include h

theorem lt_opened_iff {i : Nat} {s : SessionInfo} (hs : c.table.sessions[i]? = some s) : i < c.opened t ↔ s.openUtc ≤ t := by
  unfold GlobexCalendar.opened
  rw [lt_partitionPoint_iff (partitioned_le h.opens_lt t) hs, decide_eq_true_eq]

theorem opened_le : c.opened t ≤ c.table.sessions.length :=
  (partitionPoint_bracket (partitioned_le h.opens_lt t)).hi_le

/-- The answer is the trade date of the session that contains the instant. -/
theorem sessionAt_spec (ht : c.InRange C t) : ∃ r, c.sessionAt C t = .ok r ∧
    ∀ D, r = some D ↔ ∃ s ∈ c.table.sessions, s.tradeDate = D ∧ s.Contains t := by
  unfold GlobexCalendar.sessionAt
  rw [checkInstant_ok ht, ok_bind]
  by_cases hzero : c.opened t = 0
  · refine ⟨none, by rw [if_pos hzero]; rfl, fun D => ?_⟩
    constructor
    · intro hD
      cases hD
    · rintro ⟨s, hs, -, hin⟩
      obtain ⟨i, hi⟩ := List.mem_iff_getElem?.1 hs
      have := (lt_opened_iff h hi).2 hin.1
      omega
  · have hlt : c.opened t - 1 < c.table.sessions.length := by have := opened_le h (t := t); omega
    have hget := List.getElem?_eq_getElem hlt
    generalize c.table.sessions[c.opened t - 1] = s at hget
    have hopen : s.openUtc ≤ t := (lt_opened_iff h hget).1 (by omega)
    refine ⟨if t < s.closeUtc then some s.tradeDate else none, by rw [if_neg hzero, hget]; rfl, fun D => ?_⟩
    constructor
    · intro hD
      split_ifs at hD with hclose
      cases hD
      exact ⟨s, List.mem_of_getElem? hget, rfl, hopen, hclose⟩
    · rintro ⟨s', hs', rfl, hin⟩
      obtain ⟨i, hi⟩ := List.mem_iff_getElem?.1 hs'
      have hbefore := (lt_opened_iff h hi).2 hin.1
      -- a session before the last one opened is over
      have hi' : ¬ i < c.opened t - 1 := by
        intro hlt
        have hle := h.close_le_open hlt hi hget
        exact absurd hin.2 (not_lt.2 (hle.trans hopen))
      obtain rfl : i = c.opened t - 1 := by omega
      obtain rfl : s' = s := Option.some.inj (hi.symm.trans hget)
      rw [if_pos hin.2]

theorem sessionHalt_eq {s : SessionInfo} (hs : s ∈ c.table.sessions) : c.sessionHalt s.tradeDate = s.haltUtc := by
  obtain ⟨i, hi⟩ := List.mem_iff_getElem?.1 hs
  unfold GlobexCalendar.sessionHalt
  rw [binarySearchByKey_eq (f := SessionInfo.tradeDate) h.dates_lt hi]
  simp [hi]

theorem isOpenAt_spec (ht : c.InRange C t) : ∃ b, c.isOpenAt C t = .ok b ∧ (b = true ↔
    ∃ s ∈ c.table.sessions, s.Contains t ∧ ∀ p, s.haltUtc = some p → ¬ (p.1 ≤ t ∧ t < p.2)) := by
  obtain ⟨r, hr, hspec⟩ := sessionAt_spec h ht
  unfold GlobexCalendar.isOpenAt
  rw [hr, ok_bind]
  cases r with
  | none =>
    refine ⟨false, rfl, ?_⟩
    constructor
    · intro hfalse
      cases hfalse
    · rintro ⟨s, hs, hin, -⟩
      cases (hspec s.tradeDate).2 ⟨s, hs, rfl, hin⟩
  | some td =>
    obtain ⟨s, hs, rfl, hin⟩ := (hspec td).1 rfl
    refine ⟨_, rfl, ?_⟩
    have hone : ∀ s' ∈ c.table.sessions, s'.Contains t → s'.haltUtc = s.haltUtc := by
      intro s' hs' hin'
      have heq := Option.some.inj ((hspec s'.tradeDate).2 ⟨s', hs', rfl, hin'⟩)
      rw [← sessionHalt_eq h hs', ← sessionHalt_eq h hs, heq]
    have hhalt : (!(c.sessionHalt s.tradeDate).any fun p => decide (p.1 ≤ t ∧ t < p.2)) = true ↔
        ∀ p, s.haltUtc = some p → ¬ (p.1 ≤ t ∧ t < p.2) := by
      rw [sessionHalt_eq h hs]
      cases s.haltUtc with
      | none => simp
      | some p => simp [or_iff_not_imp_left]
    rw [hhalt]
    constructor
    · exact fun hout => ⟨s, hs, hin, hout⟩
    · rintro ⟨s', hs', hin', hout⟩ p hp
      exact hout p ((hone s' hs' hin').trans hp)

/-- The sessions whose close is after the instant, by trade date. -/
def GlobexCalendar.closingAfter (c : GlobexCalendar) (t : Int) : Set NaiveDate :=
  { D | ∃ s ∈ c.table.sessions, s.tradeDate = D ∧ t < s.closeUtc }

theorem sessionOrNext_spec (ht : c.InRange C t) : (∃ D, c.sessionOrNext C t = .ok D ∧ IsLeast (c.closingAfter t) D) ∨
    ((∃ e, c.sessionOrNext C t = .error e) ∧ c.closingAfter t = ∅) := by
  obtain ⟨r, hr, hspec⟩ := sessionAt_spec h ht
  unfold GlobexCalendar.sessionOrNext
  rw [checkInstant_ok ht, ok_bind, hr, ok_bind]
  cases r with
  | some td =>
    obtain ⟨s, hs, rfl, hin⟩ := (hspec td).1 rfl
    refine .inl ⟨_, rfl, ⟨s, hs, rfl, hin.2⟩, ?_⟩
    rintro D ⟨s', hs', rfl, hclose⟩
    obtain ⟨i, hi⟩ := List.mem_iff_getElem?.1 hs
    obtain ⟨j, hj⟩ := List.mem_iff_getElem?.1 hs'
    by_contra hlt
    -- a session of an earlier date is over when this one opens
    have hji : j < i := by
      by_contra hij
      rcases (not_lt.1 hij).lt_or_eq with hij | rfl
      · exact hlt (key_lt_of_lt (f := SessionInfo.tradeDate) h.dates_lt hij hi hj).le
      · exact hlt (Option.some.inj (hi.symm.trans hj) ▸ le_rfl)
    have hle := h.close_le_open hji hj hi
    have hopen := hin.1
    omega
  | none =>
    have hlater : ∀ s j, c.table.sessions[j]? = some s → t < s.closeUtc → c.opened t ≤ j := by
      intro s j hj hclose
      by_contra hlt
      have hin : s.Contains t := ⟨(lt_opened_iff h hj).1 (not_le.1 hlt), hclose⟩
      cases (hspec s.tradeDate).2 ⟨s, List.mem_of_getElem? hj, rfl, hin⟩
    cases hget : c.table.sessions[c.opened t]? with
    | some s =>
      have hs := List.mem_of_getElem? hget
      have hopen : t < s.openUtc := by
        by_contra hle
        exact absurd ((lt_opened_iff h hget).2 (not_lt.1 hle)) (lt_irrefl _)
      refine .inl ⟨s.tradeDate, by rfl, ⟨s, hs, rfl, hopen.trans (h.opens s hs)⟩, ?_⟩
      rintro D ⟨s', hs', rfl, hclose⟩
      obtain ⟨j, hj⟩ := List.mem_iff_getElem?.1 hs'
      rcases (hlater s' j hj hclose).lt_or_eq with hlt | rfl
      · exact (key_lt_of_lt (f := SessionInfo.tradeDate) h.dates_lt hlt hget hj).le
      · exact Option.some.inj (hget.symm.trans hj) ▸ le_rfl
    | none =>
      refine .inr ⟨⟨_, by rfl⟩, Set.eq_empty_of_forall_notMem ?_⟩
      rintro D ⟨s, hs, -, hclose⟩
      obtain ⟨j, hj⟩ := List.mem_iff_getElem?.1 hs
      have hlen := (List.getElem?_eq_some_iff.1 hj).1
      have hge := hlater s j hj hclose
      rw [List.getElem?_eq_none_iff] at hget
      omega

theorem sessionOrNext_iff (ht : c.InRange C t) (D : NaiveDate) :
    c.sessionOrNext C t = .ok D ↔ IsLeast (c.closingAfter t) D := by
  rcases sessionOrNext_spec h ht with ⟨E, hE, hleast⟩ | ⟨⟨e, he⟩, hempty⟩
  · rw [hE]
    constructor
    · rintro heq
      cases heq
      exact hleast
    · intro hD
      rw [hleast.unique hD]
  · rw [he]
    constructor
    · intro heq
      cases heq
    · intro hD
      exact absurd hD.1 (hempty ▸ Set.notMem_empty D)

/-! ## By trade date -/

/-- A date of the calendar. -/
def GlobexCalendar.TradeDate (c : GlobexCalendar) (D : NaiveDate) : Prop :=
  D ∈ c.table.tradeDates ∧ c.first ≤ D ∧ D ≤ c.last

omit h in
theorem checkDate_ok {D : NaiveDate} (hfirst : c.first ≤ D) (hlast : D ≤ c.last) : c.checkDate D = .ok () := by
  apply if_neg
  rintro (hlt | hgt)
  · exact absurd hfirst (not_le.2 hlt)
  · exact absurd hlast (not_le.2 hgt)

/-- A session of the calendar is found by its trade date. -/
theorem session_accepted {s : SessionInfo} (hs : s ∈ c.table.sessions) (hfirst : c.first ≤ s.tradeDate)
    (hlast : s.tradeDate ≤ c.last) : c.sessionOpen s.tradeDate = .ok s.openUtc ∧ c.sessionClose s.tradeDate = .ok s.closeUtc := by
  unfold GlobexCalendar.sessionOpen GlobexCalendar.sessionClose
  rw [checkDate_ok hfirst hlast, ok_bind, ok_bind, h.sessionMap_eq hs]
  exact ⟨rfl, rfl⟩

theorem nextSession_eq {D E : NaiveDate} {i : Nat} (hi : c.table.tradeDates[i]? = some D) (hfirst : c.first ≤ D)
    (hlast : D ≤ c.last) : c.nextSession D = .ok E ↔ c.table.tradeDates[i + 1]? = some E := by
  have hsorted : c.table.tradeDates.Pairwise fun a b => id a < id b := h.sorted
  have hpoint : ∀ F, c.table.tradeDates[i + 1]? = some F →
      partitionPoint (fun td => decide (td ≤ D)) c.table.tradeDates = i + 1 := by
    intro F hF
    apply partitionPoint_eq (partitioned_le hsorted D) hF
    · simpa using key_lt_of_lt hsorted (Nat.lt_succ_self i) hi hF
    · intro j b hj hb
      rcases (Nat.le_of_lt_succ hj).lt_or_eq with hlt | rfl
      · simpa using (key_lt_of_lt hsorted hlt hb hi).le
      · simp [Option.some.inj (hb.symm.trans hi)]
  have hafter : i < partitionPoint (fun td => decide (td ≤ D)) c.table.tradeDates :=
    (lt_partitionPoint_iff (partitioned_le hsorted D) hi).2 (by simp)
  unfold GlobexCalendar.nextSession
  rw [checkDate_ok hfirst hlast, ok_bind]
  cases hF : c.table.tradeDates[i + 1]? with
  | some F =>
    rw [hpoint F hF, hF]
    simp
  | none =>
    rw [List.getElem?_eq_none_iff] at hF
    rw [List.getElem?_eq_none_iff.2 (hF.trans hafter)]
    simp [GlobexCalendar.oor]

theorem previousSession_eq {D E : NaiveDate} {i : Nat} (hi : c.table.tradeDates[i]? = some D) (hfirst : c.first ≤ D)
    (hlast : D ≤ c.last) : c.previousSession D = .ok E ↔ 0 < i ∧ c.table.tradeDates[i - 1]? = some E ∧ c.first ≤ E := by
  have hsorted : c.table.tradeDates.Pairwise fun a b => id a < id b := h.sorted
  have hpoint : partitionPoint (fun td => decide (td < D)) c.table.tradeDates = i := partitionPoint_lt_eq hsorted hi
  unfold GlobexCalendar.previousSession
  rw [checkDate_ok hfirst hlast, ok_bind, hpoint]
  by_cases hpos : 0 < i
  · rw [if_pos hpos]
    cases hF : c.table.tradeDates[i - 1]? with
    | some F =>
      by_cases hge : c.first ≤ F
      · simp only [if_pos hge, pure_eq_ok, Option.some.injEq]
        constructor
        · rintro rfl
          exact ⟨hpos, rfl, hge⟩
        · exact fun hE => hE.2.1
      · simp only [if_neg hge, GlobexCalendar.oor, reduceCtorEq, Option.some.injEq, false_iff]
        rintro ⟨-, rfl, hE⟩
        exact hge hE
    | none => simp [GlobexCalendar.oor]
  · rw [if_neg hpos]
    simp [GlobexCalendar.oor, hpos]

end Lookup

end TradeEngine.Calendar
