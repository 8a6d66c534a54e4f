import TradeEngine.Lib.Streak
import TradeEngine.Lib.Trace
import TradeEngine.Mirror.Follow

/-!
# The rules a follower run keeps

While the session loop goes on the run is `Open`: it has not failed and its count is the streak of bad rounds
at the end of its calls. Where the loop ends the run is `Ended`: its flag says whether it failed.
-/

namespace TradeEngine.Mirror

open Lib

variable {T : Type}

/-! ## What the calls say -/

def Stops : Answer → Prop
  | .error _ => True
  | .ok report => report.refused ≠ none ∨ report.halted = true

/-- Whether the call is a round's verdict, and whether the round was unreadable or deferred. -/
def Call.round : Call T → Option Bool
  | .probe (.unreadable _) => some true
  | .cycle (.ok report) => some report.deferred.isSome
  | .cycle (.error _) => some false
  | _ => none

/-- The rounds of a run in order: `true` for an unreadable or deferred one. -/
def rounds (calls : List (Call T)) : List Bool := calls.filterMap Call.round

/-- The bad rounds in a row that do not yet end the run. -/
def FollowPlan.budget (plan : FollowPlan T) : Nat := if plan.once then 0 else plan.maxUnreadable

/-- The run failed: a cycle stopped it, or more rounds in a row than the budget were bad. -/
def Failed (plan : FollowPlan T) (calls : List (Call T)) : Prop :=
  (∃ answer, .cycle answer ∈ calls ∧ Stops answer) ∨ ¬ StreaksLe plan.budget (rounds calls)

/-- A call that is neither a round's verdict nor the collect. -/
def Call.Quiet (c : Call T) : Prop := c.round = none ∧ ∀ answer, c ≠ .collect answer

@[simp] theorem rounds_snoc (calls : List (Call T)) (c : Call T) :
    rounds (calls ++ [c]) = rounds calls ++ c.round.toList := by
  unfold rounds
  rw [List.filterMap_append]
  cases h : c.round <;> simp [h]

theorem rounds_quiet {calls : List (Call T)} {c : Call T} (hc : c.round = none) :
    rounds (calls ++ [c]) = rounds calls := by simp [hc]

theorem Call.round_cycle (answer : Answer) : (Call.cycle answer : Call T).round ≠ none := by
  cases answer <;> simp [Call.round]

theorem Call.Quiet.ne_cycle {c : Call T} (hc : c.Quiet) (answer : Answer) : c ≠ .cycle answer := by
  rintro rfl
  exact Call.round_cycle answer hc.1

theorem Call.quiet_log (line : String) : (Call.log line : Call T).Quiet := ⟨rfl, by simp⟩

theorem Call.quiet_sleep (seconds : T) : (Call.sleep seconds).Quiet := ⟨rfl, by simp⟩

theorem Call.quiet_now (now : T) : (Call.nowLocalSeconds now).Quiet := ⟨rfl, by simp⟩

theorem Call.quiet_readable : (Call.probe .readable : Call T).Quiet := ⟨rfl, by simp⟩

theorem Call.ne_collect {c : Call T} {b : Bool} (hc : c.round = some b) (answer : Answer) : c ≠ .collect answer := by
  rintro rfl
  cases hc

theorem Failed.snoc {plan : FollowPlan T} {calls : List (Call T)} {c : Call T} (hc : c.Quiet) :
    Failed plan (calls ++ [c]) ↔ Failed plan calls := by
  unfold Failed
  rw [rounds_quiet hc.1]
  simp [fun answer => (hc.ne_cycle answer).symm]

section Rules

variable [LinearOrder T]

/-- A cycle comes right after a reading inside the window and a probe that read, and after no cycle that stopped. -/
def Rule (plan : FollowPlan T) (past : List (Call T)) (c : Call T) : Prop :=
  ∀ answer, c = .cycle answer →
    (∃ before now, past = before ++ [.nowLocalSeconds now, .probe .readable] ∧
      plan.sendOpen ≤ now ∧ now < plan.sendClose) ∧
    ∀ a, .cycle a ∈ past → ¬ Stops a

/-- What the calls of a run keep before its collect. -/
structure Safe (plan : FollowPlan T) (calls : List (Call T)) : Prop where
  orderly : Orderly (Rule plan) calls
  within : StreaksLe (plan.budget + 1) (rounds calls)
  pending : ∀ answer, .collect answer ∉ calls

/-- The invariant of the session loop. -/
structure Open (plan : FollowPlan T) (r : Run T) : Prop where
  safe : Safe plan r.calls
  ok : r.ok = true
  clean : ∀ answer, .cycle answer ∈ r.calls → ¬ Stops answer
  within : StreaksLe plan.budget (rounds r.calls)
  streak : Streak r.unreadableCycles (rounds r.calls)

/-- What holds where the session loop was left. -/
structure Ended (plan : FollowPlan T) (r : Run T) : Prop where
  safe : Safe plan r.calls
  ok : r.ok = true ↔ ¬ Failed plan r.calls

/-- A bad round was recorded and is not yet counted. -/
structure Missed (plan : FollowPlan T) (r : Run T) : Prop where
  safe : Safe plan r.calls
  ok : r.ok = true
  clean : ∀ answer, .cycle answer ∈ r.calls → ¬ Stops answer
  within : r.unreadableCycles + 1 ≤ plan.budget → StreaksLe plan.budget (rounds r.calls)
  streak : Streak (r.unreadableCycles + 1) (rounds r.calls)

/-- What a round leaves behind; the flag says that it left the loop. -/
def Sent (plan : FollowPlan T) (sent : Bool × Run T) : Prop :=
  if sent.1 then Ended plan sent.2 else Open plan sent.2

variable {plan : FollowPlan T} {r r' : Run T} {c : Call T} {calls : List (Call T)}

theorem Safe.snoc (h : Safe plan calls) (hc : c.Quiet) : Safe plan (calls ++ [c]) where
  orderly := h.orderly.snoc fun answer hcycle => absurd hcycle (hc.ne_cycle answer)
  within := by
    rw [rounds_quiet hc.1]
    exact h.within
  pending answer := by simp [h.pending answer, (hc.2 answer).symm]

/-! ## The loop goes on -/

namespace Open

theorem congr (h : Open plan r) (hcalls : r'.calls = r.calls) (hok : r'.ok = r.ok)
    (hcount : r'.unreadableCycles = r.unreadableCycles) : Open plan r' where
  safe := by
    rw [hcalls]
    exact h.safe
  ok := by rw [hok, h.ok]
  clean := by
    rw [hcalls]
    exact h.clean
  within := by
    rw [hcalls]
    exact h.within
  streak := by
    rw [hcalls, hcount]
    exact h.streak

theorem quiet (h : Open plan r) (hc : c.Quiet) : Open plan (r.call c) where
  safe := h.safe.snoc hc
  ok := h.ok
  clean answer := by
    intro hmem
    rcases List.mem_append.1 hmem with hmem | hmem
    · exact h.clean answer hmem
    · exact absurd (List.mem_singleton.1 hmem).symm (hc.ne_cycle answer)
  within := by
    change StreaksLe plan.budget (rounds (r.calls ++ [c]))
    rw [rounds_quiet hc.1]
    exact h.within
  streak := by
    change Streak r.unreadableCycles (rounds (r.calls ++ [c]))
    rw [rounds_quiet hc.1]
    exact h.streak

theorem count_le (h : Open plan r) : r.unreadableCycles ≤ plan.budget := h.within.of_streak h.streak

theorem not_failed (h : Open plan r) : ¬ Failed plan r.calls := by
  rintro (⟨answer, hmem, hstops⟩ | hwithin)
  · exact h.clean answer hmem hstops
  · exact hwithin h.within

theorem ended (h : Open plan r) : Ended plan r := ⟨h.safe, iff_of_true h.ok h.not_failed⟩

theorem safe_round (h : Open plan r) {b : Bool} (hc : c.round = some b) (hrule : Rule plan r.calls c) :
    Safe plan (r.calls ++ [c]) where
  orderly := h.safe.orderly.snoc hrule
  within := by
    rw [rounds_snoc, hc]
    cases b with
    | false => exact h.safe.within.reset
    | true => exact h.safe.within.hit h.streak (by have := h.count_le; omega)
  pending answer := by simp [h.safe.pending answer, (Call.ne_collect hc answer).symm]

theorem clean_snoc (h : Open plan r) (hc : ∀ answer, c = .cycle answer → ¬ Stops answer) (answer : Answer)
    (hmem : .cycle answer ∈ r.calls ++ [c]) : ¬ Stops answer := by
  rcases List.mem_append.1 hmem with hmem | hmem
  · exact h.clean answer hmem
  · exact hc answer (List.mem_singleton.1 hmem).symm

theorem missed (h : Open plan r) (hc : c.round = some true) (hrule : Rule plan r.calls c)
    (hclean : ∀ answer, c = .cycle answer → ¬ Stops answer) : Missed plan (r.call c) where
  safe := h.safe_round hc hrule
  ok := h.ok
  clean := h.clean_snoc hclean
  within hle := by
    change StreaksLe plan.budget (rounds (r.calls ++ [c]))
    rw [rounds_snoc, hc]
    exact h.within.hit h.streak hle
  streak := by
    change Streak (r.unreadableCycles + 1) (rounds (r.calls ++ [c]))
    rw [rounds_snoc, hc]
    exact h.streak.hit

end Open

theorem Missed.congr (h : Missed plan r) (hcalls : r'.calls = r.calls) (hok : r'.ok = r.ok)
    (hcount : r'.unreadableCycles = r.unreadableCycles) : Missed plan r' where
  safe := by
    rw [hcalls]
    exact h.safe
  ok := by rw [hok, h.ok]
  clean := by
    rw [hcalls]
    exact h.clean
  within := by
    rw [hcalls, hcount]
    exact h.within
  streak := by
    rw [hcalls, hcount]
    exact h.streak

theorem Safe.giveUp (h : Safe plan r.calls) (hfailed : Failed plan r.calls) (line : String) :
    Sent plan (r.giveUp line) := by
  unfold Sent Run.giveUp
  rw [if_pos rfl]
  refine ⟨h.snoc (Call.quiet_log line), ?_⟩
  have hstill : Failed plan (r.calls ++ [.log line]) := (Failed.snoc (Call.quiet_log line)).2 hfailed
  exact iff_of_false Bool.false_ne_true (not_not.2 hstill)

theorem Missed.spend (h : Missed plan r) {givingUp : Nat → String} {first : String} {sent : Bool × Run T}
    (hsent : r.spend plan givingUp first = some sent) : Sent plan sent := by
  unfold Run.spend at hsent
  simp only at hsent
  by_cases hover : 2 ^ 32 ≤ r.unreadableCycles + 1
  · rw [if_pos hover] at hsent
    cases hsent
  rw [if_neg hover] at hsent
  by_cases hgive : plan.once ∨ plan.maxUnreadable < r.unreadableCycles + 1
  · rw [if_pos hgive] at hsent
    cases hsent
    have hlt : plan.budget < r.unreadableCycles + 1 := by
      unfold FollowPlan.budget
      split_ifs with honce
      · omega
      · exact hgive.resolve_left honce
    have hfailed : Failed plan r.calls := .inr fun hwithin => absurd (hwithin.of_streak h.streak) (not_le.2 hlt)
    exact Safe.giveUp (r := { r with unreadableCycles := r.unreadableCycles + 1 }) h.safe hfailed _
  · rw [if_neg hgive] at hsent
    obtain ⟨honce, hle⟩ := not_or.1 hgive
    have hbudget : r.unreadableCycles + 1 ≤ plan.budget := by
      unfold FollowPlan.budget
      rw [if_neg honce]
      exact not_lt.1 hle
    have hopen : Open plan { r with unreadableCycles := r.unreadableCycles + 1 } :=
      ⟨h.safe, h.ok, h.clean, h.within hbudget, h.streak⟩
    split_ifs at hsent
    · cases hsent
      exact hopen.quiet (Call.quiet_log first)
    · cases hsent
      exact hopen

end Rules

end TradeEngine.Mirror
