import TradeEngine.Mirror.Lemmas.Session

/-!
# The follower sends inside its window and accounts for the day
-/

namespace TradeEngine.Mirror

open Lib

variable {T : Type}

/-- A collect that was neither refused, halted nor deferred. -/
def Collected : Answer → Prop
  | .error _ => False
  | .ok report => report.halted = false ∧ report.deferred = none

theorem budget_add_one (plan : FollowPlan T) :
    plan.budget + 1 = if plan.once then 1 else plan.maxUnreadable + 1 := by
  unfold FollowPlan.budget
  split_ifs <;> rfl

theorem collect_calls (answer : Answer) (r : Run T) :
    ∃ line, (r.collect answer).2.calls = r.calls ++ [.collect answer, .log line] := by
  cases answer with
  | ok report => exact ⟨report.line, by simp [Run.collect, Run.call]⟩
  | error reason => exact ⟨s!"REFUSED  {reason}", by simp [Run.collect, Run.call]⟩

theorem collect_outcome (answer : Answer) (r : Run T) :
    (r.collect answer).1 = .done true ↔ r.ok = true ∧ Collected answer := by
  cases answer with
  | ok report => simp [Run.collect, Run.call, Collected, and_assoc]
  | error reason => simp [Run.collect, Collected]

variable [LinearOrder T] {plan : FollowPlan T} {calls : List (Call T)}

/-- What the calls and the outcome of a follower run keep. -/
structure Accounted (plan : FollowPlan T) (calls : List (Call T)) (outcome : FollowOutcome) : Prop where
  /-- A cycle comes right after a readable probe and a reading inside the window. -/
  window : ∀ past answer later, calls = past ++ .cycle answer :: later →
    ∃ before now, past = before ++ [.nowLocalSeconds now, .probe .readable] ∧
      plan.sendOpen ≤ now ∧ now < plan.sendClose
  /-- Nothing is sent after a cycle that was refused, halted or raised. -/
  stops : ∀ past answer later, calls = past ++ .cycle answer :: later → Stops answer →
    ∀ a, .cycle a ∉ later
  /-- Unreadable and deferred rounds in a row. -/
  budget : ∀ streak, streak <:+: rounds calls → false ∉ streak →
    streak.length ≤ if plan.once then 1 else plan.maxUnreadable + 1
  /-- The one collect is the last call but for its log line, and waits for its time unless the run had failed. -/
  collect : plan.once = false → ∃ before answer line, calls = before ++ [.collect answer, .log line] ∧
    (∀ a, .collect a ∉ before) ∧
    (Failed plan before ∨ ∃ earlier now, before = earlier ++ [.nowLocalSeconds now] ∧ plan.collectAt ≤ now)
  once : plan.once = true → ∀ a, .collect a ∉ calls
  outcome : outcome = .done true ↔
    ¬ Failed plan calls ∧ ∀ answer, .collect answer ∈ calls → Collected answer

theorem stops_of_orderly (h : Orderly (Rule plan) calls) {past later : List (Call T)} {answer : Answer}
    (hcalls : calls = past ++ .cycle answer :: later) (hstops : Stops answer) (a : Answer) : .cycle a ∉ later := by
  intro hmem
  obtain ⟨mid, rest, rfl⟩ := List.append_of_mem hmem
  have hsplit : calls = (past ++ .cycle answer :: mid) ++ .cycle a :: rest := by simp [hcalls]
  exact (h _ _ _ hsplit a rfl).2 answer (by simp) hstops

theorem Ended.accounted {r : Run T} (h : Ended plan r) (honce : plan.once = true) :
    Accounted plan r.calls (.done r.ok) where
  window past answer later hcalls := (h.safe.orderly past _ later hcalls answer rfl).1
  stops _ _ _ hcalls hstops := stops_of_orderly h.safe.orderly hcalls hstops
  budget streak hstreak hfalse := by
    rw [← budget_add_one]
    exact h.safe.within streak hstreak hfalse
  collect hnot := absurd honce (by simp [hnot])
  once _ := h.safe.pending
  outcome := by
    rw [FollowOutcome.done.injEq, h.ok, iff_self_and]
    intro _ answer hmem
    exact absurd hmem (h.safe.pending answer)

theorem Ended.collected {r : Run T} (h : Ended plan r) (honce : plan.once = false)
    (hwait : Failed plan r.calls ∨
      ∃ earlier now, r.calls = earlier ++ [.nowLocalSeconds now] ∧ plan.collectAt ≤ now) (answer : Answer) :
    Accounted plan (r.collect answer).2.calls (r.collect answer).1 := by
  obtain ⟨line, hcalls⟩ := collect_calls answer r
  have hrounds : rounds (r.calls ++ [.collect answer, .log line]) = rounds r.calls := by
    simp [rounds, Call.round]
  have hfailed : Failed plan (r.calls ++ [.collect answer, .log line]) ↔ Failed plan r.calls := by
    unfold Failed
    rw [hrounds]
    simp
  have horderly : Orderly (Rule plan) (r.calls ++ [.collect answer, .log line]) := by
    have hcollect := h.safe.orderly.snoc (h := .collect answer) (by simp [Rule])
    have hlog := hcollect.snoc (h := .log line) (by simp [Rule])
    simpa using hlog
  rw [hcalls]
  refine ⟨?_, ?_, ?_, ?_, ?_, ?_⟩
  · intro past a later hsplit
    exact (horderly past _ later hsplit a rfl).1
  · intro past a later hsplit hstops
    exact stops_of_orderly horderly hsplit hstops
  · rw [hrounds, ← budget_add_one]
    exact h.safe.within
  · intro _
    exact ⟨r.calls, answer, line, rfl, h.safe.pending, hwait⟩
  · intro hnot
    simp [hnot] at honce
  · rw [collect_outcome, h.ok, hfailed]
    simp [h.safe.pending]

/-- Every run of the follower loop that ends, on any plan and any answers of its host, keeps to its window
and its budget, collects once and last unless it runs once, and says what happened. -/
theorem follow_loop_accounted (plan : FollowPlan T) (host : FollowHost T) (outcome : FollowOutcome)
    (calls : List (Call T)) (hloop : followLoop plan host = some (outcome, calls)) :
    Accounted plan calls outcome := by
  unfold followLoop at hloop
  obtain ⟨⟨turn, clock, r⟩, hsession, hloop⟩ := Option.bind_eq_some_iff.1 hloop
  obtain ⟨hended, hreturned⟩ := (start_open plan host).session hsession
  simp only at hloop
  split_ifs at hloop with hdone hok
  · have honce : plan.once = true := hdone.elim hreturned fun h => h.elim id And.right
    cases hloop
    exact hended.accounted honce
  · have honce : plan.once = false := by
      simp only [not_or] at hdone
      exact Bool.eq_false_iff.2 hdone.2.1
    obtain ⟨r₁, hwait, hloop⟩ := Option.bind_eq_some_iff.1 hloop
    obtain ⟨hended₁, hreading⟩ := hended.collectWait hwait
    cases hloop
    exact hended₁.collected honce (.inr hreading) host.collect
  · have honce : plan.once = false := by
      simp only [not_or] at hdone
      exact Bool.eq_false_iff.2 hdone.2.1
    have hfailed : Failed plan r.calls := by
      by_contra hnot
      exact hok (hended.ok.2 hnot)
    cases hloop
    exact hended.collected honce (.inl hfailed) host.collect

/-- A day with a deferred round, an unreadable one and a clean one. -/
def mixedDay : FollowHost Nat where
  clock := [35160, 35190, 35220, 57300, 57310, 57900]
  probes := [.readable, .unreadable "gone", .readable]
  cycles := [.ok ⟨false, none, some "venue busy", 0, 0, 0, 0, [], "deferred"⟩,
    .ok ⟨false, none, none, 1, 0, 0, 0, [], "queued 1"⟩]
  collect := .ok (.collect "collected" false none)

theorem follow_loop_accounted_mixed_day :
    (followLoop ⟨35100, 57300, 57900, 30, false, 10⟩ mixedDay).isSome = true ∧
      ∃ outcome calls, followLoop ⟨35100, 57300, 57900, 30, false, 10⟩ mixedDay = some (outcome, calls) ∧
        Accounted ⟨35100, 57300, 57900, 30, false, 10⟩ calls outcome := by
  have hends : (followLoop ⟨35100, 57300, 57900, 30, false, 10⟩ mixedDay).isSome = true := by decide +kernel
  refine ⟨hends, ?_⟩
  obtain ⟨⟨outcome, calls⟩, hrun⟩ := Option.isSome_iff_exists.1 hends
  exact ⟨outcome, calls, hrun, follow_loop_accounted _ _ outcome calls hrun⟩

end TradeEngine.Mirror
