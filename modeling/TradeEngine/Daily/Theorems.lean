import TradeEngine.Daily.Snapshots
import TradeEngine.Lib.Ordered
import TradeEngine.Calendar.Date
import TradeEngine.Ledger.Theorems

/-!
# Daily snapshots are a running history

What is written after the marks of a log, with marks of later dates only, changes none of its snapshots; and the
peaks of every snapshot are those of the snapshots up to it.
-/

namespace TradeEngine.Daily

open Lib Margin Calendar

/-! ## The order of writing -/

theorem notAfter_trans {t u v : DateTime} (h : notAfter t u) (h' : notAfter u v) : notAfter t v := le_trans h h'

instance : IsTrans Logged writtenBefore := ⟨fun _ _ _ h h' => le_trans h h'⟩

instance : Std.Total writtenBefore := ⟨fun _ _ => le_total _ _⟩

theorem notAfter_of_writtenBefore {a b : Logged} (h : writtenBefore a b) : notAfter a.event.tsUtc b.event.tsUtc := by
  rcases Prod.Lex.toLex_le_toLex.1 h with hlt | ⟨heq, -⟩
  · exact le_of_lt hlt
  · exact le_of_eq heq

/-- Written by the time of some mark. -/
def early (log : List Logged) (e : Logged) : Bool := log.any fun m => m.isMark && notAfter e.event.tsUtc m.asOf

theorem early_of_writtenBefore {log : List Logged} {a b : Logged} (h : writtenBefore a b) (hb : early log b = true) :
    early log a = true := by
  simp only [early, List.any_eq_true, Bool.and_eq_true, decide_eq_true_eq] at hb ⊢
  obtain ⟨m, hm, hmark, hb⟩ := hb
  exact ⟨m, hm, hmark, notAfter_trans (notAfter_of_writtenBefore h) hb⟩

theorem takeWhile_early (log events : List Logged) :
    (written events).takeWhile (early log) = (written events).filter (early log) :=
  takeWhile_eq_filter (List.pairwise_insertionSort writtenBefore events) fun _ _ => early_of_writtenBefore

/-- What is not early does not change what is early. -/
theorem takeWhile_early_append {log more : List Logged} (hlater : ∀ e ∈ more, early log e = false) :
    (written (log ++ more)).takeWhile (early log) = (written log).takeWhile (early log) := by
  have hmore : more.filter (early log) = [] := by
    rw [List.filter_eq_nil_iff]
    intro e he
    rw [hlater e he]
    decide
  rw [takeWhile_early, takeWhile_early, written, written, filter_insertionSort, filter_insertionSort, List.filter_append,
    hmore, List.append_nil]

/-! ## The sessions -/

theorem mem_closes {log : List Logged} {d : NaiveDate} :
    d ∈ closes log ↔ ∃ e ∈ log, e.isMark = true ∧ e.asOf.date = d := by
  simp only [closes, List.mem_insertionSort, List.mem_dedup, List.mem_map, List.mem_filter, and_assoc]

theorem closes_sorted (log : List Logged) :
    (closes log).Pairwise fun a b => a.numDaysFromCe < b.numDaysFromCe := by
  have htotal : Std.Total fun a b : NaiveDate => a.numDaysFromCe ≤ b.numDaysFromCe := ⟨fun _ _ => le_total _ _⟩
  have htrans : IsTrans NaiveDate fun a b => a.numDaysFromCe ≤ b.numDaysFromCe := ⟨fun _ _ _ h h' => le_trans h h'⟩
  have hle := List.pairwise_insertionSort (fun a b : NaiveDate => a.numDaysFromCe ≤ b.numDaysFromCe)
    (((log.filter (·.isMark)).map (·.asOf.date)).dedup)
  have hnodup : (closes log).Nodup := ((List.perm_insertionSort _ _).nodup_iff).2 (List.nodup_dedup _)
  refine (List.Pairwise.and hle hnodup).imp fun {a b} h => ?_
  exact lt_of_le_of_ne h.1 fun heq => h.2 (numDaysFromCe_injective heq)

theorem closes_append {log more : List Logged}
    (hdates : ∀ e ∈ more, e.isMark = true → ∀ m ∈ log, m.isMark = true →
      m.asOf.date.numDaysFromCe < e.asOf.date.numDaysFromCe) :
    closes (log ++ more) = closes log ++ closes more := by
  have hirrefl : Std.Irrefl fun a b : NaiveDate => a.numDaysFromCe < b.numDaysFromCe := ⟨fun _ => lt_irrefl _⟩
  refine List.Pairwise.eq_of_mem_iff (closes_sorted _) (List.pairwise_append.2 ⟨closes_sorted _, closes_sorted _, ?_⟩) ?_
  · intro a ha b hb
    obtain ⟨m, hm, hmark, rfl⟩ := mem_closes.1 ha
    obtain ⟨e, he, hemark, rfl⟩ := mem_closes.1 hb
    exact hdates e he hemark m hm hmark
  · intro d
    simp only [List.mem_append, mem_closes]
    constructor
    · rintro ⟨e, he | he, h⟩
      · exact .inl ⟨e, he, h⟩
      · exact .inr ⟨e, he, h⟩
    · rintro (⟨e, he, h⟩ | ⟨e, he, h⟩)
      · exact ⟨e, .inl he, h⟩
      · exact ⟨e, .inr he, h⟩

theorem closeStamp_append {log more : List Logged} {d : NaiveDate} (hd : d ∈ closes log)
    (hdates : ∀ e ∈ more, e.isMark = true → ∀ m ∈ log, m.isMark = true →
      m.asOf.date.numDaysFromCe < e.asOf.date.numDaysFromCe) : closeStamp (log ++ more) d = closeStamp log d := by
  have hmore : (more.filter fun e => e.isMark && e.asOf.date = d) = [] := by
    rw [List.filter_eq_nil_iff]
    intro e he h
    rw [Bool.and_eq_true, decide_eq_true_eq] at h
    obtain ⟨m, hm, hmark, hdate⟩ := mem_closes.1 hd
    have hlt := hdates e he h.1 m hm hmark
    rw [hdate, h.2] at hlt
    exact lt_irrefl _ hlt
  rw [closeStamp, closeStamp, List.filter_append, hmore, List.append_nil]

/-- The stamp of a session is the time of a mark. -/
theorem mem_of_closeStamp {log : List Logged} {d : NaiveDate} {stamp : DateTime} (h : closeStamp log d = some stamp) :
    ∃ m ∈ log, m.isMark = true ∧ m.asOf = stamp := by
  have hgen : ∀ (l : List Logged) (best : Option DateTime), (∀ t ∈ best, ∃ m ∈ log, m.isMark = true ∧ m.asOf = t) →
      (∀ e ∈ l, e ∈ log ∧ e.isMark = true) → ∀ t ∈ l.foldl laterStamp best, ∃ m ∈ log, m.isMark = true ∧ m.asOf = t := by
    intro l
    induction l with
    | nil => exact fun best hbest _ => hbest
    | cons e l ih =>
      intro best hbest hl
      refine ih _ (fun t ht => ?_) fun x hx => hl x (List.mem_cons_of_mem _ hx)
      have he := hl e List.mem_cons_self
      unfold laterStamp at ht
      split at ht
      · exact hbest t ht
      · cases ht
        exact ⟨e, he.1, he.2, rfl⟩
  refine hgen _ none (fun t ht => by cases ht) (fun e he => ?_) stamp h
  rw [List.mem_filter, Bool.and_eq_true] at he
  exact ⟨he.1, he.2.1⟩

/-! ## The cursor -/

theorem advance_early (events : List Logged) {log : List Logged} {stamp : DateTime} {upto : Nat} {d : NaiveDate}
    (hstamp : closeStamp log d = some stamp) (hupto : upto ≤ ((written events).takeWhile (early log)).length) :
    advance (written events) stamp upto = advance ((written events).takeWhile (early log)) stamp upto ∧
      advance (written events) stamp upto ≤ ((written events).takeWhile (early log)).length := by
  have hearly : ∀ e : Logged, decide (notAfter e.event.tsUtc stamp) = true → early log e = true := by
    intro e he
    obtain ⟨m, hm, hmark, rfl⟩ := mem_of_closeStamp hstamp
    rw [early, List.any_eq_true]
    exact ⟨m, hm, by rw [hmark, he]; rfl⟩
  have hsame : advance (written events) stamp upto = advance ((written events).takeWhile (early log)) stamp upto := by
    rw [advance, advance, takeWhile_drop hearly hupto]
  refine ⟨hsame, ?_⟩
  have hlength := (List.takeWhile_prefix (l := ((written events).takeWhile (early log)).drop upto)
    fun e => decide (notAfter e.event.tsUtc stamp)).length_le
  rw [List.length_drop] at hlength
  rw [hsame, advance]
  omega

/-- The events before the cursor, over the early ones. -/
theorem take_early (log events : List Logged) {n : Nat} (hn : n ≤ ((written events).takeWhile (early log)).length) :
    (written events).take n = ((written events).takeWhile (early log)).take n := by
  obtain ⟨rest, hrest⟩ := List.takeWhile_prefix (l := written events) (early log)
  conv_lhs => rw [← hrest]
  exact List.take_append_of_le_length hn

section

variable {D : Type} [AccountDecimal D] {A : Arith} {overrides : String → Option (D × D)} {account : String}

/-- A snapshot is added at the end, and nothing else is done to those there are. -/
theorem add_snapshots {x x' : History D} {session : NaiveDate} {index : Nat} {m : Reading D} {heat : S (D × List String)}
    (h : x.add session index m heat = .ok x') :
    x'.upto = x.upto ∧ ∃ s, x'.snapshots = x.snapshots ++ [s] ∧ s.marginUsed = m.marginMaintenance ∧ s.equity = m.equity ∧
      s.marginPeak = raise x.peakMargin s.marginUsed ∧ x'.peakMargin = some s.marginPeak ∧
      x'.peakEquity = some (raise x.peakEquity s.equity) ∧
      drawdown (raise x.peakEquity s.equity) s.equity = .ok s.drawdownFromPeak := by
  simp only [History.add, bind_eq_ok, except_mapError_eq_ok, marginSummary, pure_eq_ok] at h
  obtain ⟨summary, ⟨available, -, rfl⟩, dd, hdd, risk, -, rfl⟩ := h
  exact ⟨rfl, _, rfl, rfl, rfl, rfl, rfl, rfl, hdd⟩

theorem closeSession_snapshots {log : List Logged} {x x' : History D} {e : NaiveDate × Nat}
    (h : closeSession A overrides account log x e = .ok x') : x.snapshots <+: x'.snapshots := by
  unfold closeSession at h
  split at h
  · cases h
  · simp only [bind_eq_ok] at h
    obtain ⟨st, -, h⟩ := h
    split at h
    · cases h
      exact List.prefix_rfl
    · obtain ⟨m, -, h⟩ := bind_eq_ok.1 h
      obtain ⟨-, s, hs, -⟩ := add_snapshots h
      rw [hs]
      exact List.prefix_append _ _

theorem closeSessions_snapshots {log : List Logged} {l : List (NaiveDate × Nat)} {x x' : History D}
    (h : l.foldlM (closeSession A overrides account log) x = .ok x') : x.snapshots <+: x'.snapshots := by
  induction l generalizing x with
  | nil =>
    cases h
    exact List.prefix_rfl
  | cons e l ih =>
    obtain ⟨y, hy, h⟩ := bind_eq_ok.1 h
    exact (closeSession_snapshots hy).trans (ih h)

/-- A session of the log closes as it did, whatever was written later. -/
theorem closeSession_append (A : Arith) (overrides : String → Option (D × D)) (account : String)
    {log more : List Logged} {x : History D} {e : NaiveDate × Nat}
    (hlater : ∀ e ∈ more, early log e = false)
    (hdates : ∀ e ∈ more, e.isMark = true → ∀ m ∈ log, m.isMark = true →
      m.asOf.date.numDaysFromCe < e.asOf.date.numDaysFromCe)
    (he : e.1 ∈ closes log) (hupto : x.upto ≤ ((written log).takeWhile (early log)).length) :
    closeSession A overrides account (log ++ more) x e = closeSession A overrides account log x e ∧
      ∀ x', closeSession A overrides account log x e = .ok x' →
        x'.upto ≤ ((written log).takeWhile (early log)).length := by
  unfold closeSession
  rw [closeStamp_append he hdates]
  cases hstamp : closeStamp log e.1 with
  | none => exact ⟨rfl, fun x' h => by cases h⟩
  | some stamp =>
    dsimp only
    have hearly := takeWhile_early_append hlater
    obtain ⟨hadvance, hle⟩ := advance_early log hstamp hupto
    obtain ⟨hadvance', hle'⟩ := advance_early (log ++ more) hstamp (hearly ▸ hupto)
    have hsame : advance (written (log ++ more)) stamp x.upto = advance (written log) stamp x.upto := by
      rw [hadvance', hearly, hadvance]
    have htake : (written (log ++ more)).take (advance (written log) stamp x.upto) =
        (written log).take (advance (written log) stamp x.upto) := by
      rw [take_early log log hle, take_early log (log ++ more) (by rw [hearly]; exact hle), hearly]
    rw [hsame, htake]
    refine ⟨rfl, fun x' h => ?_⟩
    obtain ⟨st, -, h⟩ := bind_eq_ok.1 h
    split at h
    · cases h
      exact hle
    · obtain ⟨m, -, h⟩ := bind_eq_ok.1 h
      rw [(add_snapshots h).1]
      exact hle

theorem closeSessions_append (A : Arith) (overrides : String → Option (D × D)) (account : String)
    {log more : List Logged} {l : List (NaiveDate × Nat)} {x : History D}
    (hlater : ∀ e ∈ more, early log e = false)
    (hdates : ∀ e ∈ more, e.isMark = true → ∀ m ∈ log, m.isMark = true →
      m.asOf.date.numDaysFromCe < e.asOf.date.numDaysFromCe)
    (hl : ∀ e ∈ l, e.1 ∈ closes log) (hupto : x.upto ≤ ((written log).takeWhile (early log)).length) :
    l.foldlM (closeSession A overrides account (log ++ more)) x = l.foldlM (closeSession A overrides account log) x := by
  induction l generalizing x with
  | nil => rfl
  | cons e l ih =>
    obtain ⟨hsame, hnext⟩ := closeSession_append A overrides account hlater hdates
      (hl e List.mem_cons_self) hupto
    rw [List.foldlM_cons, List.foldlM_cons, hsame]
    cases hstep : closeSession A overrides account log x e with
    | error err => rfl
    | ok y => exact ih (fun d hd => hl d (List.mem_cons_of_mem _ hd)) (hnext y hstep)

/-! ## Peaks -/

/-- The greatest of what there is. -/
def IsPeak (l : List D) (peak : Option D) : Prop := (peak = none ∧ l = []) ∨ ∃ p, peak = some p ∧ IsGreatest {x | x ∈ l} p

theorem raise_isGreatest {l : List D} {peak : Option D} {figure : D} (h : IsPeak l peak) :
    IsGreatest {x | x ∈ l ++ [figure]} (raise peak figure) := by
  rcases h with ⟨rfl, rfl⟩ | ⟨p, rfl, hp⟩
  · simp [raise, IsGreatest, upperBounds]
  · simp only [raise, Option.elim_some]
    split
    · rename_i hlt
      refine ⟨by simp, fun y hy => ?_⟩
      rcases List.mem_append.1 hy with hy | hy
      · exact (hp.2 hy).trans hlt.le
      · exact (List.mem_singleton.1 hy).le
    · rename_i hge
      refine ⟨List.mem_append_left _ hp.1, fun y hy => ?_⟩
      rcases List.mem_append.1 hy with hy | hy
      · exact hp.2 hy
      · rw [List.mem_singleton.1 hy]
        exact not_lt.1 hge

/-- The drawdown from a peak: nothing while the peak is not positive or is the equity itself. -/
def IsDrawdown (peak equity dd : D) : Prop :=
  (peak ≤ 0 ∧ dd = 0) ∨ (0 < peak ∧ equity = peak ∧ dd = 0) ∨
    (0 < peak ∧ equity < peak ∧ Decimal.sub peak equity = some dd)

theorem drawdown_ok {peak equity dd : D} (hle : equity ≤ peak) (h : drawdown peak equity = .ok dd) :
    IsDrawdown peak equity dd := by
  unfold drawdown at h
  split at h
  · rename_i hcase
    cases hsub : Decimal.sub peak equity with
    | none =>
      rw [hsub] at h
      cases h
    | some d =>
      rw [hsub] at h
      cases h
      exact .inr (.inr ⟨hcase.1, hcase.2, hsub⟩)
  · rename_i hcase
    cases h
    by_cases hpos : 0 < peak
    · exact .inr (.inl ⟨hpos, le_antisymm hle (not_lt.1 fun hlt => hcase ⟨hpos, hlt⟩), rfl⟩)
    · exact .inl ⟨not_lt.1 hpos, rfl⟩

/-- Each snapshot's peaks are those of the snapshots up to it. -/
def Running (snapshots : List (AccountSnapshot D)) : Prop :=
  ∀ (i : Nat) (s : AccountSnapshot D), snapshots[i]? = some s →
    IsGreatest {x | x ∈ (snapshots.take (i + 1)).map (·.marginUsed)} s.marginPeak ∧
      ∃ peak, IsGreatest {x | x ∈ (snapshots.take (i + 1)).map (·.equity)} peak ∧
        IsDrawdown peak s.equity s.drawdownFromPeak

theorem running_append {l : List (AccountSnapshot D)} {s : AccountSnapshot D} (hl : Running l)
    (hmargin : IsGreatest {x | x ∈ (l ++ [s]).map (·.marginUsed)} s.marginPeak)
    (hequity : ∃ peak, IsGreatest {x | x ∈ (l ++ [s]).map (·.equity)} peak ∧ IsDrawdown peak s.equity s.drawdownFromPeak) :
    Running (l ++ [s]) := by
  intro i t ht
  rcases Nat.lt_or_ge i l.length with hi | hi
  · rw [List.getElem?_append_left hi] at ht
    rw [List.take_append_of_le_length hi]
    exact hl i t ht
  · have hlast : i < (l ++ [s]).length := (List.getElem?_eq_some_iff.1 ht).1
    rw [List.length_append, List.length_singleton] at hlast
    obtain rfl : i = l.length := by omega
    rw [List.getElem?_append_right hi, Nat.sub_self] at ht
    cases ht
    rw [List.take_of_length_le (by simp)]
    exact ⟨hmargin, hequity⟩

/-- What the loop holds between sessions. -/
structure Kept (x : History D) : Prop where
  margin : IsPeak (x.snapshots.map (·.marginUsed)) x.peakMargin
  equity : IsPeak (x.snapshots.map (·.equity)) x.peakEquity
  running : Running x.snapshots

theorem closeSession_kept {log : List Logged} {x x' : History D} {e : NaiveDate × Nat} (hx : Kept x)
    (h : closeSession A overrides account log x e = .ok x') : Kept x' := by
  unfold closeSession at h
  split at h
  · cases h
  · simp only [bind_eq_ok] at h
    obtain ⟨st, -, h⟩ := h
    split at h
    · cases h
      exact ⟨hx.margin, hx.equity, hx.running⟩
    · obtain ⟨m, -, h⟩ := bind_eq_ok.1 h
      obtain ⟨-, s, hs, -, -, hpeak, hmargin, hequity, hdd⟩ := add_snapshots h
      dsimp only at hs hpeak hequity hdd
      have hused : IsGreatest {y | y ∈ (x.snapshots ++ [s]).map (·.marginUsed)} s.marginPeak := by
        rw [List.map_append, List.map_singleton, hpeak]
        exact raise_isGreatest hx.margin
      have hequities : IsGreatest {y | y ∈ (x.snapshots ++ [s]).map (·.equity)} (raise x.peakEquity s.equity) := by
        rw [List.map_append, List.map_singleton]
        exact raise_isGreatest hx.equity
      have hle : s.equity ≤ raise x.peakEquity s.equity := hequities.2 (by simp)
      refine ⟨?_, ?_, ?_⟩
      · rw [hs, hmargin]
        exact .inr ⟨_, rfl, hused⟩
      · rw [hs, hequity]
        exact .inr ⟨_, rfl, hequities⟩
      · rw [hs]
        exact running_append hx.running hused ⟨_, hequities, drawdown_ok hle hdd⟩

theorem closeSessions_kept {log : List Logged} {l : List (NaiveDate × Nat)} {x x' : History D} (hx : Kept x)
    (h : l.foldlM (closeSession A overrides account log) x = .ok x') : Kept x' := by
  induction l generalizing x with
  | nil =>
    cases h
    exact hx
  | cons e l ih =>
    obtain ⟨y, hy, h⟩ := bind_eq_ok.1 h
    exact ih (closeSession_kept hx hy) h

theorem kept_new : Kept (History.new : History D) where
  margin := .inl ⟨rfl, rfl⟩
  equity := .inl ⟨rfl, rfl⟩
  running := fun i s h => by cases h

/-! ## The history -/

/-- Events written after the time of every mark of a log, whose own marks are of later dates. -/
def Extends (account : String) (events more : List Logged) : Prop :=
  ∀ e ∈ more, e.event.account = account → ∀ m ∈ events, m.event.account = account → m.isMark = true →
    ¬ notAfter e.event.tsUtc m.asOf ∧ (e.isMark = true → m.asOf.date.numDaysFromCe < e.asOf.date.numDaysFromCe)

/-- What is written later leaves the snapshots of a log as they were, at the beginning of the longer history; and in every
history the margin peak is the greatest margin used up to then, and the drawdown is taken from the greatest equity up to
then. -/
theorem daily_snapshots_history (A : Arith) (overrides : String → Option (D × D)) (account : String)
    (events : List Logged) (snapshots : List (AccountSnapshot D))
    (h : dailySnapshots A overrides account events = .ok snapshots) :
    Running snapshots ∧ ∀ more longer, Extends account events more →
      dailySnapshots A overrides account (events ++ more) = .ok longer → snapshots <+: longer := by
  obtain ⟨x, hx, hsnapshots⟩ := bind_eq_ok.1 h
  cases hsnapshots
  refine ⟨(closeSessions_kept kept_new hx).running, fun more longer hmore hlonger => ?_⟩
  obtain ⟨y, hy, hlonger⟩ := bind_eq_ok.1 hlonger
  cases hlonger
  rw [List.filter_append] at hy
  have hmark : ∀ {e m : Logged}, e ∈ more.filter (·.event.account = account) →
      m ∈ events.filter (·.event.account = account) → m.isMark = true →
      ¬ notAfter e.event.tsUtc m.asOf ∧ (e.isMark = true → m.asOf.date.numDaysFromCe < e.asOf.date.numDaysFromCe) := by
    intro e m he hm hmark
    rw [List.mem_filter, decide_eq_true_eq] at he hm
    exact hmore e he.1 he.2 m hm.1 hm.2 hmark
  have hlater : ∀ e ∈ more.filter (·.event.account = account),
      early (events.filter (·.event.account = account)) e = false := by
    intro e he
    rw [early, List.any_eq_false]
    intro m hm hearly
    rw [Bool.and_eq_true, decide_eq_true_eq] at hearly
    exact (hmark he hm hearly.1).1 hearly.2
  have hdates : ∀ e ∈ more.filter (·.event.account = account), e.isMark = true →
      ∀ m ∈ events.filter (·.event.account = account), m.isMark = true →
      m.asOf.date.numDaysFromCe < e.asOf.date.numDaysFromCe := fun e he hem m hm hmm => (hmark he hm hmm).2 hem
  rw [closes_append hdates, List.zipIdx_append, List.foldlM_append] at hy
  have hold := closeSessions_append A overrides account
    (x := (History.new : History D)) (l := (closes (events.filter (·.event.account = account))).zipIdx) hlater hdates
    (fun e he => (List.mem_zipIdx' he).2 ▸ List.getElem_mem _) (Nat.zero_le _)
  rw [hold, hx, ok_bind] at hy
  exact closeSessions_snapshots hy

end

namespace Sample

/-- Small numbers, on which the library computes exactly. -/
scoped instance rational : AccountDecimal ℚ where
  ofInt k := k
  ofParts units scale := units / 10 ^ scale
  add a b := some (a + b)
  sub a b := some (a - b)
  mul a b := some (a * b)
  div a b := if b = 0 then none else some (a / b)
  neg a := -a
  abs a := |a|
  toI64 a := (checked (a.num.tdiv a.den)).toOption
  text a := toString a
  ofMoney m := m.val
  trunc a := a.num.tdiv a.den

def tomorrow : DateTime := ⟨TradeEngine.Sample.day.next, 43200, 0, 0⟩

def deposit : Event :=
  ⟨⟨"acct", .cashFlow, .cashFlow ⟨.ofNat 2000⟩, TradeEngine.Sample.noon, some "d0", 1, some 1⟩, by decide, by decide⟩

/-- An order for ten shares. -/
def sharesOrder : Event :=
  ⟨⟨"acct", .orderSubmitted, .order (TradeEngine.Sample.market "o1" "d1" (.single (.equity "AAPL")) .buy (.ofNat 10)),
    TradeEngine.Sample.noon, some "d1", 1, some 2⟩, by decide, by decide⟩

theorem ten_pos : 0 < (Money.ofNat 10).mantissa := by decide

theorem price_pos : 0 < (Money.ofNat 100).mantissa := by decide

theorem sharesFill_named : "f1" ≠ "" ∧ "o1" ≠ "" ∧ "acct" ≠ "" := by decide

/-- Ten shares bought at 100. -/
def sharesFill : Event :=
  ⟨⟨"acct", .fill, .fill ⟨"f1", "o1", "acct", .single (.equity "AAPL"), .ofNat 10, .ofNat 100, .sim, TradeEngine.Sample.noon,
    .buy, .ofNat 0, none, none, none, sharesFill_named, ten_pos, price_pos⟩, TradeEngine.Sample.noon, some "d2", 1, some 3⟩,
    by decide, by decide⟩

def mark (command : String) (price : Nat) (time : DateTime) (seq : Int) : EventFields :=
  ⟨"acct", .mark, .mark ⟨.single (.equity "AAPL"), .ofNat price⟩, time, some command, 1, some seq⟩

def firstMark : Event := ⟨mark "d3" 100 TradeEngine.Sample.noon 4, by decide, by decide⟩

def secondMark : Event := ⟨mark "d4" 90 tomorrow 5, by decide, by decide⟩

/-- The shares are bought out of a deposit and marked. -/
def firstDay : List Logged :=
  [⟨deposit, TradeEngine.Sample.noon⟩, ⟨sharesOrder, TradeEngine.Sample.noon⟩, ⟨sharesFill, TradeEngine.Sample.noon⟩,
    ⟨firstMark, TradeEngine.Sample.noon⟩]

/-- They are marked again, lower. -/
def secondDay : List Logged := [⟨secondMark, tomorrow⟩]

/-- The snapshots as their equity, peak and drawdown. -/
def daily (events : List Logged) : Option (List (ℚ × ℚ × ℚ)) :=
  (dailySnapshots (.code TradeEngine.Sample.decimal) (fun _ => none) "acct" events).toOption.map
    (List.map fun s => (s.equity, s.marginPeak, s.drawdownFromPeak))

end Sample

open TradeEngine.Daily.Sample in
/-- The first day's snapshot is the first of the two days', and the second is a hundred under its equity. -/
theorem daily_snapshots_history_second_day :
    ∃ snapshots longer : List (AccountSnapshot ℚ),
      dailySnapshots (.code TradeEngine.Sample.decimal) (fun _ => none) "acct" firstDay = .ok snapshots ∧
      dailySnapshots (.code TradeEngine.Sample.decimal) (fun _ => none) "acct" (firstDay ++ secondDay) = .ok longer ∧
      snapshots <+: longer ∧ snapshots.length = 1 ∧ longer.map (·.drawdownFromPeak) = [0, 100] := by
  have hfirst : daily firstDay = some [(2000, 250, 0)] := by decide +kernel
  have hboth : daily (firstDay ++ secondDay) = some [(2000, 250, 0), (1900, 250, 100)] := by decide +kernel
  simp only [daily, Option.map_eq_some_iff] at hfirst hboth
  obtain ⟨snapshots, hsnapshots, hshort⟩ := hfirst
  obtain ⟨longer, hlonger, hlong⟩ := hboth
  have hextends : Extends "acct" firstDay secondDay := by
    intro e he _ m hm _ _
    rw [secondDay, List.mem_singleton] at he
    simp only [firstDay, List.mem_cons, List.not_mem_nil, or_false] at hm
    rcases hm with rfl | rfl | rfl | rfl <;> exact he ▸ by decide
  refine ⟨snapshots, longer, toOption_eq_some.1 hsnapshots, toOption_eq_some.1 hlonger,
    (daily_snapshots_history (.code TradeEngine.Sample.decimal) (fun _ => none) "acct" firstDay snapshots
      (toOption_eq_some.1 hsnapshots)).2 secondDay longer hextends (toOption_eq_some.1 hlonger), ?_, ?_⟩
  · simpa using congrArg List.length hshort
  · simpa [Function.comp_def] using congrArg (List.map fun s => s.2.2) hlong

end TradeEngine.Daily
