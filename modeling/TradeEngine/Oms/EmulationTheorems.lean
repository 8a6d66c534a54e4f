import TradeEngine.Oms.StopTheorems

/-!
# Emulated orders

The exits of a bracket that the venue cannot hold itself, and prices of orders that have ended.
-/

namespace TradeEngine.Sample

open Oms

/-- A venue that takes market and limit orders only, so that stops are emulated, and that accepts
every cancel. -/
def bare : Host := { host [] with
  capabilities := fun _ => ⟨[.market, .limit], [.day, .gtc], false⟩
  cancel := fun _ id => .ok ⟨id, "ACCEPTED", none⟩ }

/-- The filled bracket at that venue, and a price at which its stop triggers. -/
def triggeredBracket : List Command :=
  filledBracket ++ [.updateEmulatedOrder "p:stop" (units 80) "tick"]

/-- A stop to sell, alone. -/
def loneStop : Order := { buy with orderType := .stop, side := .sell, stopPrice := some (units 90) }

/-- It is submitted, so that its emulation starts, and cancelled. -/
def cancelledStop : List Command := [.submit loneStop, .cancel "o1" "k"]

/-- An order of account `b` under the id that the target of the bracket in `a` will have. -/
def namesake : Order := { buy with orderId := "p:target:1", accountId := "b", commandId := "cb" }

/-- The request by which the stop of the bracket goes out. -/
def routesStop : Obj → Bool
  | .orderUpdated u => u.order.orderId = "p:stop" && u.order.state = .submitted &&
      u.reason = "Emulated STOP submission requested"
  | _ => false

end TradeEngine.Sample

namespace TradeEngine.Oms

open Lib

variable {A : Arith}

/-! ## Emulated exits are exclusive -/

/-- In every run whose brackets and reduces create no id of another account: when the broker is asked
to submit an order by its trigger, every other order of its parent and group has ended. -/
theorem triggered_exits_alone (D : RustDecimal) (H : Host) {commands : List Command}
    (h : everyCommand H (fun w command => command.Separate w.ledger)
      (World.opened : World (.code D)) commands) :
    ∀ call ∈ (runCommands H (.code D) commands).core.trace, ∀ a id, call.act = .submit a id →
      call.ledger.Exclusive a id := by
  have hopened : SentAlone (World.opened : World (.code D)).core :=
    ⟨⟨fun _ _ _ _ _ ho => (by cases ho), fun _ hcall => (by cases hcall), fun _ => Nat.zero_le 1⟩,
      fun _ hcall => (by cases hcall)⟩
  exact (run_invariant Apart.takesNew (fun _ _ hsep => hsep.takes) (fun _ _ hs hc => hc.step hs)
    (fun _ _ _ _ hr hc => hc.requested hr) h hopened).alone

/-- A bracket's stop triggers with the target working: the target is cancelled first. -/
theorem triggered_exits_alone_bracket :
    (∀ call ∈ (runCommands Sample.bare (.code Sample.decimal) Sample.triggeredBracket).core.trace,
      ∀ a id, call.act = .submit a id → call.ledger.Exclusive a id) ∧
    (runCommands Sample.bare (.code Sample.decimal) Sample.triggeredBracket).core.trace.any
      (fun call => call.act = .submit "a" "p:stop" &&
        (call.ledger.held "a" "p:target:1").any fun o => o.state = .cancelled) = true := by
  refine ⟨triggered_exits_alone Sample.decimal Sample.bare ?_, by decide +kernel⟩
  refine ⟨fun _ _ o _ b p hp => ?_, trivial, trivial, trivial, trivial⟩
  cases hp

/-- Account `b` has an ended order under the id of the target in `a`: the trigger of the stop in `a`
finds that one, and goes out with its own target still `NEW`. -/
theorem triggered_exit_with_live_sibling :
    ¬ ∀ call ∈ (runCommands Sample.bare (.code Sample.decimal) ([.submit Sample.namesake,
      .cancel "p:target:1" "k"] ++ Sample.triggeredBracket)).core.trace,
      ∀ a id, call.act = .submit a id → call.ledger.Exclusive a id := by
  intro hall
  have hcall : (runCommands Sample.bare (.code Sample.decimal) ([.submit Sample.namesake,
      .cancel "p:target:1" "k"] ++ Sample.triggeredBracket)).core.trace.any (fun call =>
        call.act = .submit "a" "p:stop" &&
        call.ledger.events.any (fun ev => ev.account = "a" && Sample.routesStop ev.payload) &&
        (call.ledger.held "a" "p:stop").any (fun o =>
          (siblings o (call.ledger.state o.accountId).orders.values).any
            fun p => !terminal p.state)) = true := by
    decide +kernel
  obtain ⟨call, hmem, hcall⟩ := List.any_eq_true.mp hcall
  simp only [Bool.and_eq_true, decide_eq_true_eq] at hcall
  obtain ⟨⟨hact, hrouted⟩, halone⟩ := hcall
  obtain ⟨ev, hev, hrouted⟩ := List.any_eq_true.mp hrouted
  rw [Option.any_eq_true] at halone
  obtain ⟨o, ho, halone⟩ := halone
  obtain ⟨p, hp, hlive⟩ := List.any_eq_true.mp halone
  have hgoes : call.ledger.Routed "a" "p:stop" := by
    simp only [Bool.and_eq_true, decide_eq_true_eq] at hrouted
    refine ⟨ev, hev, hrouted.1, ?_⟩
    cases hpay : ev.payload <;>
      simp only [hpay, Sample.routesStop, Bool.false_eq_true, and_false] at hrouted
    rename_i u
    simp only [Bool.and_eq_true, decide_eq_true_eq] at hrouted
    obtain ⟨-, ⟨hid, hstate⟩, hreason⟩ := hrouted
    exact ⟨u, .stop, rfl, hid, hstate, hreason⟩
  have hended := hall call hmem "a" "p:stop" hact hgoes o ho p hp
  rw [hended] at hlive
  cases hlive

/-! ## Ended emulated orders -/

/-- A price moves the emulation: a stop has a positive stop price, a trail a positive amount and room
for a positive stop. -/
def Moves (A : Arith) (ctx : Context) (price : Money) : Prop :=
  if ctx.order.orderType = .trail then
    (ctx.order.trailAmount.getD .zero).le .zero = false ∧
      ∃ trail, Trail.update A ⟨ctx.order.side, ctx.order.trailAmount.getD .zero,
        ctx.emulation.bind (·.extreme), ctx.emulation.bind (·.stopPrice),
        ctx.emulation.any (·.triggered)⟩ price = .ok trail ∧
        (trail.stopPrice.any (·.le .zero)) = false
  else ∃ stop, ctx.order.stopPrice = some stop ∧ stop.le .zero = false

theorem Moves.of_recorded {ctx : Context} {price : Money} {seen : EmulatedOrderState}
    (hobs : observe A ctx.order ctx.emulation price = .ok seen)
    (hcheck : checked (.emulated seen) = .ok ()) : Moves A ctx price := by
  unfold observe at hobs
  unfold Moves
  simp only [checked, checkEmulated, bind_eq_ok, refuseIf_eq_ok] at hcheck
  obtain ⟨-, -, -, -, -, -, -, hstop, -⟩ := hcheck
  by_cases htrail : ctx.order.orderType = .trail
  · simp only [htrail, if_true, checkTrailAmount, bind_eq_ok, refuseIf_eq_ok, pure_eq_ok] at hobs ⊢
    obtain ⟨-, hamount, trail, hup, rfl⟩ := hobs
    exact ⟨eq_false_of_ne_true hamount, trail, hup, eq_false_of_ne_true hstop⟩
  · simp only [htrail, if_false, bind_eq_ok, pure_eq_ok] at hobs ⊢
    obtain ⟨⟨stop, triggered⟩, hseen, rfl⟩ := hobs
    unfold stopObservation at hseen
    split at hseen
    · cases hseen
    · rename_i hs
      cases hseen
      exact ⟨stop, hs, eq_false_of_ne_true hstop⟩

theorem observedAction_ended {triggered : Bool} {s : OrderState} {id : String} {x : Observed}
    (h : observedAction triggered s id = .ok x) (hs : terminal s = true) :
    x = if triggered then .ret else .observe := by
  cases triggered with
  | false => cases h; rfl
  | true => cases s <;> cases hs <;> cases h <;> rfl

/-- An ended order's replayed observation does nothing. -/
theorem replayObservation_ended {H : Host} {w : World A} {order : Order} {price : Money}
    {command : String} {prior : Event} (hcur : Current order w.core)
    (hended : terminal order.state = true) :
    Prog.Post (fun _ w' => w'.core = w.core) (fun _ w' => w'.core = w.core)
      (replayObservation H order price command prior w) := by
  refine Prog.post_bind.mpr (.lift (fun _ _ => ?_) fun _ _ => rfl)
  refine Prog.post_bind.mpr ((read_spec _ w).weaken ?_ fun _ _ h => h)
  rintro current w₁ ⟨hw₁, hget⟩
  cases hcur.read hget
  refine Prog.post_bind.mpr (.lift (fun action haction => ?_) fun _ _ => hw₁)
  have hroute : action ≠ .route := by
    rw [observedAction_ended haction hended]
    generalize Option.any _ _ = triggered
    cases triggered <;> decide
  rw [if_neg hroute]
  exact hw₁

/-- A read is the next call of the host. -/
theorem read_tick {α : Type} {H : Host} (f : Ledger A → R α) (w : World A) :
    Prog.Post (fun _ w' => w'.tick = w.tick + 1) (fun _ _ => True) (read H f w) := by
  unfold Oms.read call
  refine Prog.post_bind.mpr ?_
  dsimp only
  split
  · trivial
  · exact Prog.post_bind.mpr (Prog.Post.get (Prog.Post.lift (fun _ _ => rfl) fun _ _ => trivial))

theorem call_answers {α : Type} {H : Host} (f : Nat → α) (w : World A) :
    Prog.Post (fun x _ => x = f w.tick) (fun _ _ => True) (call H f w) := by
  unfold call
  split
  · trivial
  · rfl

/-- A price for an ended emulated order does nothing, unless it is the first observation of a new
command that moves a started, untriggered emulation the venue does not hold itself. -/
theorem ended_order_inert (D : RustDecimal) (H : Host) (w : World (.code D)) {orderId : String}
    {ctx : Context} {price : Money} {command : String} (hctx : w.ledger.context? orderId = some ctx)
    (hended : terminal ctx.order.state = true)
    (h : price.le .zero = true ∨ ctx.emulation = none ∨
      supportsNative ctx.order.orderType (H.capabilities (w.tick + 1)) = true ∨
      w.ledger.byCommand command ≠ none ∨ ctx.emulation.any (·.triggered) = true ∨
      ¬ Moves (.code D) ctx price) :
    (updateEmulatedOrder H orderId price command w).2.core = w.core := by
  have hpost : Prog.Post (fun _ w' => w'.core = w.core) (fun _ w' => w'.core = w.core)
      (updateEmulatedOrder H orderId price command w) := by
    refine Prog.post_bind.mpr (.lift (fun _ hprice => ?_) fun _ _ => rfl)
    refine Prog.post_bind.mpr ((Prog.Post.and (read_spec _ w) (read_tick _ w)).weaken ?_ fun _ _ h => h.1)
    rintro ctx' w₁ ⟨⟨hw₁, hread⟩, htick⟩
    have hsame := Ledger.context_some hread
    rw [show w.core.ledger.context? orderId = some ctx from hctx] at hsame
    cases hsame
    refine Prog.post_bind.mpr ((Prog.Post.and (still_call.spec w₁) (call_answers _ w₁)).weaken ?_ fun _ _ h => h.1.trans hw₁)
    rintro caps w₂ ⟨hw₂, hcaps⟩
    refine Prog.post_bind.mpr (.lift (fun _ hstarted => ?_) fun _ _ => hw₂.trans hw₁)
    refine Prog.post_bind.mpr ((read_spec _ w₂).weaken ?_ fun _ _ h => h.trans (hw₂.trans hw₁))
    rintro prior w₃ ⟨hw₃, hprior⟩
    have hw : w₃.core = w.core := hw₃.trans (hw₂.trans hw₁)
    have hprior : w.ledger.byCommand command = prior := by
      rw [hw₂.trans hw₁] at hprior
      exact Except.ok.inj hprior
    cases prior with
    | some e =>
        have hcur : Current ctx.order w₃.core := hw ▸ .of_context hctx
        rw [← hw]
        exact replayObservation_ended hcur hended
    | none =>
        refine Prog.post_bind.mpr (.lift (fun action haction => ?_) fun _ _ => hw)
        rw [observedAction_ended haction hended]
        cases htrig : ctx.emulation.any (·.triggered) with
        | true => exact hw
        | false =>
            refine Prog.post_bind.mpr (.lift (fun seen hseen => ?_) fun _ _ => hw)
            refine Prog.post_bind.mpr (Prog.post_bind.mpr (.lift (fun _ hcheck => ?_) fun _ _ => hw))
            rcases h with h | h | h | h | h | h
            · simp [checkPrice, h] at hprice
            · simp [emulationCheck, h] at hstarted
            · rw [hcaps, htick] at hstarted
              simp [emulationCheck, h] at hstarted
            · exact absurd hprior h
            · rw [htrig] at h
              cases h
            · exact absurd (.of_recorded hseen hcheck) h
  exact hpost.reached

/-- The trigger of an ended order is recorded: further prices do nothing. -/
theorem ended_order_inert_sold :
    let w := runCommands Sample.bare (.code Sample.decimal)
      [.submit Sample.loneStop, .updateEmulatedOrder "o1" (Sample.units 80) "tick", .cancel "o1" "k"]
    (w.ledger.context? "o1").any (fun ctx => terminal ctx.order.state &&
      ctx.emulation.any (·.triggered)) = true ∧
    (updateEmulatedOrder Sample.bare "o1" (Sample.units 70) "tock" w).2.core = w.core := by
  intro w
  have hw : (w.ledger.context? "o1").any (fun ctx => terminal ctx.order.state &&
      ctx.emulation.any (·.triggered)) = true := by
    decide +kernel
  refine ⟨hw, ?_⟩
  rw [Option.any_eq_true] at hw
  obtain ⟨ctx, hctx, hw⟩ := hw
  rw [Bool.and_eq_true] at hw
  exact ended_order_inert Sample.decimal Sample.bare w hctx hw.1 (.inr (.inr (.inr (.inr (.inl hw.2)))))

/-- A cancelled stop whose trigger was never reached takes the next price: an event is appended. -/
theorem cancelled_stop_takes_price :
    let w := runCommands Sample.bare (.code Sample.decimal) Sample.cancelledStop
    (w.ledger.context? "o1").any (fun ctx => ctx.order.state = .cancelled && ctx.emulation.isSome) =
      true ∧
    (updateEmulatedOrder Sample.bare "o1" (Sample.units 80) "tick" w).2.core ≠ w.core := by
  intro w
  refine ⟨by decide +kernel, fun hsame => ?_⟩
  have hgrown : (updateEmulatedOrder Sample.bare "o1" (Sample.units 80) "tick" w).2.core.ledger.events.length
      = w.core.ledger.events.length + 1 := by
    decide +kernel
  rw [hsame] at hgrown
  omega

end TradeEngine.Oms
