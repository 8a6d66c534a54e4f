import Mathlib.Tactic

/-!
# The mirror follower's loop

Pacing, send window, the budget of unreadable and deferred rounds, and the collect after the close. The
clock is any linear order: the loop only compares readings. What the host answers is a script, each kind of
answer in the order it is asked for, and the run records every call it makes.
-/

namespace TradeEngine.Mirror

structure FollowReport where
  halted : Bool
  refused : Option String
  deferred : Option String
  queued : Nat
  fills : Nat
  closes : Nat
  refusedCount : Nat
  waiting : List String
  line : String
  deriving DecidableEq, Repr

/-- A collect report; it has no refusal of its own, a collect is refused by its error. -/
def FollowReport.collect (line : String) (halted : Bool) (deferred : Option String) : FollowReport where
  halted := halted
  refused := none
  deferred := deferred
  queued := 0
  fills := 0
  closes := 0
  refusedCount := 0
  waiting := []
  line := line

inductive Probe where
  | readable
  | unreadable (why : String)
  deriving DecidableEq, Repr

abbrev Answer := Except String FollowReport

structure FollowPlan (T : Type) where
  sendOpen : T
  sendClose : T
  collectAt : T
  intervalSeconds : T
  once : Bool
  maxUnreadable : Nat

inductive FollowOutcome where
  | done (ok : Bool)
  deriving DecidableEq, Repr

/-- One call of the loop on its host, with what the host answered. -/
inductive Call (T : Type) where
  | nowLocalSeconds (now : T)
  | sleep (seconds : T)
  | probe (answer : Probe)
  | cycle (answer : Answer)
  | collect (answer : Answer)
  | log (line : String)

structure FollowHost (T : Type) where
  clock : List T
  probes : List Probe
  cycles : List Answer
  collect : Answer

/-- The loop's variables, what the host still has to say besides the time, and the calls made, oldest first. -/
structure Run (T : Type) where
  probes : List Probe
  cycles : List Answer
  unreadableCycles : Nat
  waitingBefore : List String
  ok : Bool
  cycled : Bool
  calls : List (Call T)

inductive Turn where
  | again
  | broke
  | returned
  deriving DecidableEq, Repr

variable {T : Type}

def Run.call (r : Run T) (c : Call T) : Run T := { r with calls := r.calls ++ [c] }

def Run.giveUp (r : Run T) (line : String) : Bool × Run T := (true, { r.call (.log line) with ok := false })

/-- A round that was unreadable or deferred: the budget both share. `none` where the `u32` count overflows. -/
def Run.spend (plan : FollowPlan T) (givingUp : Nat → String) (first : String) (r : Run T) :
    Option (Bool × Run T) :=
  let n := r.unreadableCycles + 1
  let r := { r with unreadableCycles := n }
  if 2 ^ 32 ≤ n then none
  else if plan.once ∨ plan.maxUnreadable < n then some (r.giveUp (givingUp n))
  else if n = 1 then some (false, r.call (.log first))
  else some (false, r)

def Run.settle (report : FollowReport) (r : Run T) : Run T :=
  let r := if 0 < r.unreadableCycles then
      { r.call (.log s!"resumed after {r.unreadableCycles} unreadable cycle(s)") with unreadableCycles := 0 }
    else r
  let waitingChanged : Bool := report.waiting != r.waitingBefore
  let r := if 0 < report.queued ∨ 0 < report.refusedCount ∨ 0 < report.fills ∨ 0 < report.closes ∨
      (report.waiting ≠ [] ∧ waitingChanged) then r.call (.log report.line) else r
  { r with waitingBefore := report.waiting }

/-- What the loop does with a cycle's report; the flag says that it leaves the loop. -/
def Run.classify (plan : FollowPlan T) (report : FollowReport) (r : Run T) : Option (Bool × Run T) :=
  match report.refused with
  | some reason => some (r.giveUp s!"REFUSED  {reason}")
  | none =>
    if report.halted then some (r.giveUp s!"HALTED  {report.line}")
    else
      match report.deferred with
      | some why => r.spend plan (fun n => s!"giving up: venue deferred {n} cycle(s) ({why})") report.line
      | none => some (false, r.settle report)

def Run.cycle (plan : FollowPlan T) (r : Run T) : Option (Bool × Run T) :=
  match r.cycles with
  | [] => none
  | answer :: cycles =>
    let r := { r.call (.cycle answer) with cycles := cycles }
    match answer with
    | .error reason => some (r.giveUp s!"REFUSED  {reason}")
    | .ok report => { r with cycled := true }.classify plan report

def Run.send (plan : FollowPlan T) (r : Run T) : Option (Bool × Run T) :=
  match r.probes with
  | [] => none
  | answer :: probes =>
    let r := { r.call (.probe answer) with probes := probes }
    match answer with
    | .unreadable why => r.spend plan (fun n => s!"giving up: venue unreadable for {n} cycle(s) ({why})")
        s!"venue unreadable ({why}); sending nothing until it reads"
    | .readable => r.cycle plan

section Loop

variable [LinearOrder T] (plan : FollowPlan T)

def Run.pace (r : Run T) : Turn × Run T :=
  if plan.once then (.returned, r) else (.again, r.call (.sleep plan.intervalSeconds))

def Run.turn (now : T) (r : Run T) : Option (Turn × Run T) :=
  if plan.sendClose ≤ now then some (.broke, r)
  else if plan.sendOpen ≤ now then
    (r.send plan).map fun sent => if sent.1 then (.broke, sent.2) else sent.2.pace plan
  else some (r.pace plan)

/-- The session loop, with the readings left when it ends; `none` where the host's script runs out first. -/
def Run.session : List T → Run T → Option (Turn × List T × Run T)
  | [], _ => none
  | now :: clock, r =>
    match (r.call (.nowLocalSeconds now)).turn plan now with
    | none => none
    | some (.again, r) => Run.session clock r
    | some (turn, r) => some (turn, clock, r)

def Run.collectWait : List T → Run T → Option (Run T)
  | [], _ => none
  | now :: clock, r =>
    let r := r.call (.nowLocalSeconds now)
    if now < plan.collectAt then Run.collectWait clock (r.call (.sleep plan.intervalSeconds)) else some r

def Run.collect (answer : Answer) (r : Run T) : FollowOutcome × Run T :=
  let r := r.call (.collect answer)
  match answer with
  | .ok report => (.done (r.ok && !report.halted && report.deferred.isNone), r.call (.log report.line))
  | .error reason => (.done false, r.call (.log s!"REFUSED  {reason}"))

def followLoop (host : FollowHost T) : Option (FollowOutcome × List (Call T)) := do
  let start : Run T := ⟨host.probes, host.cycles, 0, [], true, false, []⟩
  let (turn, clock, r) ← start.session plan host.clock
  if turn = .returned ∨ plan.once ∨ (!r.cycled ∧ plan.once) then return (.done r.ok, r.calls)
  let r ← if r.ok then r.collectWait plan clock else some r
  let (outcome, r) := r.collect host.collect
  return (outcome, r.calls)

end Loop

end TradeEngine.Mirror
