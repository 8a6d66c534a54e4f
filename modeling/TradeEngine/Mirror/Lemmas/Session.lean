import TradeEngine.Mirror.Lemmas.Follow

/-!
# The session loop and the collect wait

One turn keeps the run open or ends it, and so does the whole loop.
-/

namespace TradeEngine.Mirror

open Lib

variable {T : Type} [LinearOrder T] {plan : FollowPlan T} {r r' : Run T} {now : T} {before : List (Call T)}

/-! ## One round -/

theorem settle_open {report : FollowReport} (hsafe : Safe plan r.calls) (hok : r.ok = true)
    (hclean : ∀ answer, .cycle answer ∈ r.calls → ¬ Stops answer)
    (hwithin : StreaksLe plan.budget (rounds r.calls)) (hstreak : Streak 0 (rounds r.calls)) :
    Open plan (r.settle report) := by
  have hreset : Open plan (if 0 < r.unreadableCycles then
      { r.call (.log s!"resumed after {r.unreadableCycles} unreadable cycle(s)") with unreadableCycles := 0 }
    else r) := by
    split_ifs with hcount
    · have hopen : Open plan { r with unreadableCycles := 0 } := ⟨hsafe, hok, hclean, hwithin, hstreak⟩
      exact (hopen.quiet (Call.quiet_log _)).congr rfl rfl rfl
    · have hzero : r.unreadableCycles = 0 := Nat.eq_zero_of_not_pos hcount
      exact ⟨hsafe, hok, hclean, hwithin, by rw [hzero]; exact hstreak⟩
  unfold Run.settle
  simp only
  generalize (if 0 < r.unreadableCycles then _ else r : Run T) = r₁ at hreset ⊢
  split_ifs
  · exact (hreset.quiet (Call.quiet_log report.line)).congr rfl rfl rfl
  · exact hreset.congr rfl rfl rfl

/-- The run right before a cycle. -/
structure Ready (plan : FollowPlan T) (r : Run T) : Prop where
  isOpen : Open plan r
  rule : ∀ answer, Rule plan r.calls (.cycle answer)

theorem Open.ready (h : Open plan r) (hcalls : r.calls = before ++ [.nowLocalSeconds now, .probe .readable])
    (hopen : plan.sendOpen ≤ now) (hclose : now < plan.sendClose) : Ready plan r where
  isOpen := h
  rule _ _ _ := ⟨⟨before, now, hcalls, hopen, hclose⟩, h.clean⟩

theorem Ready.stop (h : Ready plan r) (answer : Answer) (hstops : Stops answer) :
    Safe plan (r.calls ++ [.cycle answer]) ∧ Failed plan (r.calls ++ [.cycle answer]) := by
  obtain ⟨b, hb⟩ := Option.ne_none_iff_exists'.1 (Call.round_cycle (T := T) answer)
  exact ⟨h.isOpen.safe_round hb (h.rule answer), .inl ⟨answer, by simp, hstops⟩⟩

theorem Ready.classify (h : Ready plan r) {report : FollowReport} {cycles : List Answer} {sent : Bool × Run T}
    (hsent : Run.classify plan report
      { r.call (.cycle (.ok report)) with cycles := cycles, cycled := true } = some sent) :
    Sent plan sent := by
  unfold Run.classify at hsent
  cases hrefused : report.refused with
  | some reason =>
    rw [hrefused] at hsent
    cases hsent
    obtain ⟨hsafe, hfailed⟩ := h.stop (.ok report) (.inl (by simp [hrefused]))
    exact Safe.giveUp (r := { r.call (.cycle (.ok report)) with cycles := cycles, cycled := true }) hsafe hfailed _
  | none =>
    rw [hrefused] at hsent
    simp only at hsent
    by_cases hhalted : report.halted = true
    · rw [if_pos hhalted] at hsent
      cases hsent
      obtain ⟨hsafe, hfailed⟩ := h.stop (.ok report) (.inr hhalted)
      exact Safe.giveUp (r := { r.call (.cycle (.ok report)) with cycles := cycles, cycled := true }) hsafe hfailed _
    rw [if_neg hhalted] at hsent
    have hclean : ∀ answer, (Call.cycle (.ok report) : Call T) = .cycle answer → ¬ Stops answer := by
      rintro answer heq
      cases heq
      simp [Stops, hrefused, hhalted]
    cases hdeferred : report.deferred with
    | some why =>
      rw [hdeferred] at hsent
      have hmissed : Missed plan { r.call (.cycle (.ok report)) with cycles := cycles, cycled := true } :=
        (h.isOpen.missed (by simp [Call.round, hdeferred]) (h.rule (.ok report)) hclean).congr rfl rfl rfl
      exact hmissed.spend hsent
    | none =>
      rw [hdeferred] at hsent
      cases hsent
      have hround : (Call.cycle (.ok report) : Call T).round = some false := by simp [Call.round, hdeferred]
      refine settle_open (h.isOpen.safe_round hround (h.rule _)) h.isOpen.ok (h.isOpen.clean_snoc hclean) ?_ ?_
      · change StreaksLe plan.budget (rounds (r.calls ++ [.cycle (.ok report)]))
        rw [rounds_snoc, hround]
        exact h.isOpen.within.reset
      · change Streak 0 (rounds (r.calls ++ [.cycle (.ok report)]))
        rw [rounds_snoc, hround]
        exact Streak.reset

theorem Ready.cycle (h : Ready plan r) {sent : Bool × Run T} (hsent : r.cycle plan = some sent) :
    Sent plan sent := by
  unfold Run.cycle at hsent
  cases hcycles : r.cycles with
  | nil =>
    rw [hcycles] at hsent
    cases hsent
  | cons answer cycles =>
    rw [hcycles] at hsent
    cases answer with
    | error reason =>
      cases hsent
      obtain ⟨hsafe, hfailed⟩ := h.stop (.error reason) trivial
      exact Safe.giveUp (r := { r.call (.cycle (.error reason)) with cycles := cycles }) hsafe hfailed _
    | ok report => exact h.classify hsent

theorem Open.send (h : Open plan r) (hcalls : r.calls = before ++ [.nowLocalSeconds now])
    (hopen : plan.sendOpen ≤ now) (hclose : now < plan.sendClose) {sent : Bool × Run T}
    (hsent : r.send plan = some sent) : Sent plan sent := by
  unfold Run.send at hsent
  cases hprobes : r.probes with
  | nil =>
    rw [hprobes] at hsent
    cases hsent
  | cons answer probes =>
    rw [hprobes] at hsent
    cases answer with
    | unreadable why =>
      have hmissed : Missed plan { r.call (.probe (.unreadable why)) with probes := probes } :=
        (h.missed rfl (by simp [Rule]) (by simp)).congr rfl rfl rfl
      exact hmissed.spend hsent
    | readable =>
      have hread : Open plan { r.call (.probe .readable) with probes := probes } :=
        (h.quiet Call.quiet_readable).congr rfl rfl rfl
      have hends : r.calls ++ [.probe .readable] = before ++ [.nowLocalSeconds now, .probe .readable] := by
        rw [hcalls, List.append_assoc, List.singleton_append]
      exact (hread.ready hends hopen hclose).cycle hsent

/-! ## Turns -/

def Turned (plan : FollowPlan T) (turned : Turn × Run T) : Prop :=
  if turned.1 = .again then Open plan turned.2
  else Ended plan turned.2 ∧ (turned.1 = .returned → plan.once = true)

theorem Open.pace (h : Open plan r) : Turned plan (r.pace plan) := by
  unfold Run.pace
  split_ifs with honce
  · exact ⟨h.ended, fun _ => honce⟩
  · exact h.quiet (Call.quiet_sleep _)

theorem Open.turn (h : Open plan r) (hcalls : r.calls = before ++ [.nowLocalSeconds now]) {turned : Turn × Run T}
    (hturn : r.turn plan now = some turned) : Turned plan turned := by
  unfold Run.turn at hturn
  by_cases hclose : plan.sendClose ≤ now
  · rw [if_pos hclose] at hturn
    cases hturn
    exact ⟨h.ended, by simp⟩
  rw [if_neg hclose] at hturn
  by_cases hopen : plan.sendOpen ≤ now
  · rw [if_pos hopen] at hturn
    obtain ⟨sent, hsent, rfl⟩ := Option.map_eq_some_iff.1 hturn
    have hsend := h.send hcalls hopen (not_le.1 hclose) hsent
    unfold Sent at hsend
    split_ifs at hsend ⊢ with hbroke
    · exact ⟨hsend, by simp⟩
    · exact hsend.pace
  · rw [if_neg hopen] at hturn
    cases hturn
    exact h.pace

theorem start_open (plan : FollowPlan T) (host : FollowHost T) : Open plan ⟨host.probes, host.cycles, 0, [], true, false, []⟩ where
  safe := ⟨Orderly.nil, StreaksLe.nil, by simp⟩
  ok := rfl
  clean := by simp
  within := StreaksLe.nil
  streak := Streak.nil

theorem Open.session (h : Open plan r) {clock : List T} {turn : Turn} {left : List T}
    (hsession : r.session plan clock = some (turn, left, r')) :
    Ended plan r' ∧ (turn = .returned → plan.once = true) := by
  induction clock generalizing r with
  | nil => cases hsession
  | cons now clock ih =>
    rw [Run.session] at hsession
    cases hturn : (r.call (.nowLocalSeconds now)).turn plan now with
    | none =>
      rw [hturn] at hsession
      cases hsession
    | some turned =>
      have hturned := (h.quiet (Call.quiet_now now)).turn rfl hturn
      obtain ⟨t, r₁⟩ := turned
      rw [hturn] at hsession
      cases t with
      | again => exact ih hturned hsession
      | broke =>
        cases hsession
        exact hturned
      | returned =>
        cases hsession
        exact hturned

/-! ## The collect wait -/

theorem Ended.quiet (h : Ended plan r) {c : Call T} (hc : c.Quiet) : Ended plan (r.call c) where
  safe := h.safe.snoc hc
  ok := h.ok.trans (not_congr (Failed.snoc hc).symm)

theorem Ended.collectWait (h : Ended plan r) {clock : List T} (hwait : r.collectWait plan clock = some r') :
    Ended plan r' ∧ ∃ earlier now, r'.calls = earlier ++ [.nowLocalSeconds now] ∧ plan.collectAt ≤ now := by
  induction clock generalizing r with
  | nil => cases hwait
  | cons now clock ih =>
    have hread := h.quiet (Call.quiet_now now)
    rw [Run.collectWait] at hwait
    split_ifs at hwait with hearly
    · exact ih (hread.quiet (Call.quiet_sleep _)) hwait
    · cases hwait
      exact ⟨hread, r.calls, now, rfl, not_lt.1 hearly⟩

end TradeEngine.Mirror
