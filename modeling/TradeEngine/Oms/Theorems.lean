import TradeEngine.Ledger.Theorems
import TradeEngine.Oms.Lemmas.Invariants

/-!
# The order manager over whole runs

Statements about every sequence of commands, with any answers of the venue and a failure of any host
call: what follows a failure is the next command, on the ledger the failure left.
-/

/-! ## Sample values -/

namespace TradeEngine.Sample

open Oms

/-- A venue that accepts every order, cannot cancel, and reads back one accepted order. The host
calls in `fails` raise. -/
def host (fails : List Nat) : Host where
  fails n := fails.contains n
  now _ := (noon, true)
  capabilities _ := ⟨[.market, .limit, .stop], [.day, .gtc], true⟩
  env _ := .sim
  venueOrder _ _ := .ok ()
  submit _ v := .ok ⟨v.venueOrderId, "ACCEPTED", none⟩
  cancel _ _ := .failed
  replace _ _ _ := .failed
  orders _ _ := [⟨"o1", .accepted, .zero, .zero, "2026-09-18T12:00:00+00:00"⟩]
  fills _ _ := []
  fingerprintOrder o := o.orderId
  bracketFingerprint intent _ := intent.commandId
  reduceFingerprint entry _ _ := entry

def aapl : Instrument := .single (.equity "AAPL")

def buy : Order := market "o1" "c1" aapl .buy (units 10)

/-- A bracket in account `a`. -/
def intent : Intent :=
  ⟨"", "i1", "a", aapl, .buy, units 100, units 90, [units 120], "breakout", "p", .day, .gtc, .limit,
    none, none⟩

/-- The entry of that bracket. -/
def entry : Order := { buy with
  orderId := "p:entry", accountId := "a", commandId := "p:entry", orderType := .limit,
  limitPrice := some (units 100) }

end TradeEngine.Sample

namespace TradeEngine.Oms

open Lib

variable {A : Arith}

/-! ## An order is sent at most once -/

/-- A creation that does not look at other accounts creates no id that one of them holds. -/
def Command.Separate (l : Ledger A) : Command → Prop
  | .createBracket intent q => ∀ targets now, ∀ o ∈ bracketOrders intent q targets now,
      ∀ b p, l.held b o.orderId = some p → b = intent.accountId
  | .reduceBracket entry _ _ _ =>
      ∀ (n : Nat) b p, l.held b s!"{entry}:reduce:{n}" = some p → l.At b entry
  | _ => True

theorem Apart.of_unknown {l : Ledger A} {o : Order} (h : l.context? o.orderId = none) :
    Apart l o.accountId [o] := by
  intro o' ho' b p hp
  rw [List.mem_singleton.mp ho'] at hp
  obtain ⟨x, hx⟩ := Ledger.known_of_held ⟨p, hp⟩
  rw [h] at hx
  cases hx

theorem Command.Separate.takes {l : Ledger A} {command : Command} (h : command.Separate l) :
    command.Takes Apart l := by
  cases command with
  | createBracket intent q => exact h
  | submit order => exact Apart.of_unknown
  | submitTrailing order => exact Apart.of_unknown
  | reduceBracket entry =>
      rintro o ⟨⟨n, hn⟩, -, hat⟩ o' ho' b p hp
      rw [List.mem_singleton.mp ho', hn] at hp
      exact (h n b p hp).unique hat
  | _ => trivial

/-- In every run whose brackets and reduces create no id of another account, the broker is asked to
submit an order id at most once. -/
theorem submits_at_most_once (D : RustDecimal) (H : Host) {commands : List Command}
    (h : everyCommand H (fun w command => command.Separate w.ledger)
      (World.opened : World (.code D)) commands) (id : String) :
    ((runCommands H (.code D) commands).core.trace.filter (·.submits id)).length ≤ 1 := by
  have hopened : SentOnce (World.opened : World (.code D)).core :=
    ⟨fun _ _ _ _ _ ho => (by cases ho), fun _ hcall => (by cases hcall), fun _ => Nat.zero_le 1⟩
  refine (run_invariant Apart.takesNew (fun _ _ hsep => hsep.takes) (fun _ _ hs hc => hc.step hs)
    (fun _ _ _ _ hr hc => hc.requested hr) h hopened).once id

/-- A bracket is created and its entry submitted twice: it goes out once. -/
theorem submits_at_most_once_bracket :
    ((runCommands (Sample.host []) (.code Sample.decimal) [.createBracket Sample.intent (Sample.units 10),
      .submit Sample.entry, .submit Sample.entry]).core.trace.filter (·.submits "p:entry")).length ≤ 1 := by
  refine submits_at_most_once Sample.decimal (Sample.host []) ?_ "p:entry"
  refine ⟨fun _ _ o _ b p hp => ?_, trivial, trivial, trivial⟩
  cases hp

/-- Account `b` has sent its own order `p:entry`; a bracket of account `a`, whose events come first,
creates another. Submitting the order of `b` again finds the one of `a` and sends it. -/
theorem submits_twice_across_accounts :
    let first : Order := { Sample.buy with orderId := "x1", accountId := "a", commandId := "cx" }
    let order : Order := { Sample.buy with orderId := "p:entry", accountId := "b", commandId := "cb" }
    ((runCommands (Sample.host []) (.code Sample.decimal) [.submit first, .submit order,
      .createBracket Sample.intent (Sample.units 10), .submit order]).core.trace.filter
      (·.submits "p:entry")).length = 2 := by
  decide +kernel

/-! ## No order is lost -/

/-- The newest event is a submission request, so its marker is missing. -/
def Ledger.endsInRequest (l : Ledger A) : Bool :=
  l.events.getLast?.any fun e => requestsSubmission e.payload

/-- An order that the ledger does not have is submitted as `NEW`. -/
def Command.CreatesNew (l : Ledger A) : Command → Prop
  | .submit order | .submitTrailing order => l.context? order.orderId = none → order.state = .new
  | _ => True

theorem bracketOrders_new {intent : Intent} {q : Money} {targets : List Money} {now : DateTime} :
    ∀ o ∈ bracketOrders intent q targets now, o.state = .new := by
  intro o ho
  simp only [bracketOrders, List.mem_cons, List.mem_map] at ho
  rcases ho with rfl | rfl | ⟨x, -, rfl⟩ <;> rfl

theorem Command.CreatesNew.takes {l : Ledger A} {command : Command} (h : command.CreatesNew l) :
    command.Takes AllNew l := by
  cases command with
  | createBracket intent q => exact fun _ _ => bracketOrders_new
  | submit order => exact fun hnone o ho => List.mem_singleton.mp ho ▸ h hnone
  | submitTrailing order => exact fun hnone o ho => List.mem_singleton.mp ho ▸ h hnone
  | reduceBracket entry => exact fun o ho p hp => List.mem_singleton.mp hp ▸ ho.2.1
  | _ => trivial

theorem Requested.endsInRequest {c c' : Core A} (h : Requested c c') :
    c'.ledger.endsInRequest = true := by
  obtain ⟨e, he, happ⟩ := h
  obtain ⟨ev, -, -, hpay, -, hl, -⟩ := Ledger.append_state (Core.append_fields happ).1
  rw [Ledger.endsInRequest, hl, List.getLast?_concat, Option.any_some, hpay]
  exact he

/-- The command sends the order it returns: it submits one that the venue takes natively, or its
observation triggered an emulated one. -/
def Command.Sends (H : Host) (c : Core A) (o : Order) : Command → Prop
  | .submit _ | .submitTrailing _ => ∀ n, emulates o.orderType (H.capabilities n) = false
  | .updateTrailing _ _ command | .updateEmulatedOrder _ _ command => ∃ e x,
      c.ledger.byCommand command = some e ∧ e.payload = .emulated x ∧ x.triggered = true
  | _ => False

theorem Command.Returns.current {H : Host} {command : Command} {o : Order} {c : Core A}
    (h : command.Returns H (some o) c) (hs : command.Sends H c o) : Current o c ∧ o.state ≠ .new := by
  have hsub : Submitted H o c → (∀ n, emulates o.orderType (H.capabilities n) = false) →
      Current o c ∧ o.state ≠ .new := by
    refine fun hsub hn => ⟨hsub.1, fun hnew => ?_⟩
    obtain ⟨n, he⟩ := hsub.2 hnew
    rw [hn n] at he
    cases he
  have hwatch : ∀ id, Watched id o c → (∃ e x, c.ledger.byCommand id = some e ∧
      e.payload = .emulated x ∧ x.triggered = true) → Current o c ∧ o.state ≠ .new := by
    rintro id hw ⟨e, x, he, hx, ht⟩
    refine ⟨hw.1, fun hnew => ?_⟩
    rw [hw.2 hnew e x he hx] at ht
    cases ht
  cases command with
  | submit => exact hsub h hs
  | submitTrailing => exact hsub h hs
  | updateTrailing => exact hwatch _ h hs
  | updateEmulatedOrder => exact hwatch _ h hs
  | _ => exact hs.elim

/-- In every run in which no command ends between a submission request and its marker, and only `NEW`
orders are created: after each command no order stands `SUBMITTED` that the venue never received, and
an order that a command returns as sent was received, is in doubt, or is cancelled. -/
theorem submission_not_lost (D : RustDecimal) (H : Host) (commands : List Command) (command : Command)
    (h : everyCommand H (fun w command => command.CreatesNew w.ledger ∧
      (command.run H w).2.ledger.endsInRequest = false) (World.opened : World (.code D))
      (commands ++ [command])) :
    let r := command.run H (runCommands H (.code D) commands)
    (∀ a id o, r.2.ledger.held a id = some o → o.state = .submitted → r.2.core.Received a id) ∧
      ∀ o, r.1 = .ok (some o) → command.Sends H r.2.core o →
        r.2.core.Received o.accountId o.orderId ∨ o.state = .pendingUnknown ∨ o.state = .cancelled := by
  intro r
  have hopened : Accounted (World.opened : World (.code D)).core :=
    ⟨fun _ _ _ ho => (by cases ho), fun _ hcall => (by cases hcall)⟩
  have hrun := run_invariant AllNew.takesNew (fun _ _ hP => hP.1.takes) (fun _ _ hs hc => hc.step hs)
    (fun w c m hP hr _ => absurd hr.endsInRequest (by rw [Bool.not_eq_true]; exact hP.2)) h hopened
  rw [List.foldl_append] at hrun
  change Accounted r.2.core at hrun
  refine ⟨fun a id o ho hs => hrun.held a id o ho (by rw [hs]; rfl), fun o ho hsends => ?_⟩
  have htakes := (everyCommand_append.mp h).2.1.1.takes
  have hwalk := command.run_walks (H := H) AllNew.takesNew _ htakes
  change Prog.Post _ _ r at hwalk
  revert ho hsends hrun hwalk
  rcases r with ⟨e | x, w⟩
  · rintro - ho
    cases ho
  · rintro hrun ho hsends hwalk
    cases ho
    obtain ⟨hcur, hne⟩ := hwalk.2.current hsends
    by_cases hsil : silent o.state = true
    · cases hs : o.state <;> rw [hs] at hsil hne <;> simp [silent] at hsil hne ⊢
    · exact Or.inl (hrun.held _ _ o hcur.held (Bool.not_eq_true _ ▸ hsil))

/-- An order submitted twice is sent, and the second submission returns it. -/
theorem submission_not_lost_again : ∃ o,
    ((Command.submit Sample.buy).run (Sample.host [])
      (runCommands (Sample.host []) (.code Sample.decimal) [.submit Sample.buy])).1 = .ok (some o) ∧
    ((Command.submit Sample.buy).run (Sample.host []) (runCommands (Sample.host [])
      (.code Sample.decimal) [.submit Sample.buy])).2.core.Received o.accountId o.orderId := by
  have hr : ((Command.submit Sample.buy).run (Sample.host []) (runCommands (Sample.host [])
      (.code Sample.decimal) [.submit Sample.buy])).1.toOption =
      some (some { Sample.buy with state := .accepted }) := by decide +kernel
  refine ⟨_, toOption_eq_some.mp hr, ?_⟩
  have hrun := submission_not_lost Sample.decimal (Sample.host []) [.submit Sample.buy]
    (.submit Sample.buy) ⟨⟨fun _ => rfl, by decide +kernel⟩, ⟨fun _ => rfl, by decide +kernel⟩, trivial⟩
  rcases hrun.2 _ (toOption_eq_some.mp hr) fun _ => rfl with h | h | h
  · exact h
  · cases h
  · cases h

/-- The host raises while the marker is appended. The same submission again returns the order as
`SUBMITTED`, and nothing was ever sent. -/
theorem submission_lost_before_marker :
    let r := (Command.submit Sample.buy).run (Sample.host [14])
      (runCommands (Sample.host [14]) (.code Sample.decimal) [.submit Sample.buy])
    r.1.toOption = some (some { Sample.buy with state := .submitted }) ∧
      (r.2.ledger.held "acct" "o1").map (·.state) = some .submitted ∧
      r.2.core.trace.map (·.act) = [] := by
  decide +kernel

/-! ## The broker is asked about orders in doubt -/

/-- In every run in which each cancel that goes to the venue does so under a command id without a
stored marker, every broker call is made while its order is `PENDING_UNKNOWN`. -/
theorem broker_calls_in_doubt (D : RustDecimal) (H : Host) {commands : List Command}
    (h : ∀ call ∈ (runCommands H (.code D) commands).core.trace, call.unmarked = true) :
    ∀ call ∈ (runCommands H (.code D) commands).core.trace, call.inDoubt = true := by
  have hopened : Doubtful (World.opened : World (.code D)).core := fun _ _ hcall => by cases hcall
  have hnew : TakesNew fun (_ : Ledger (.code D)) _ _ => True := fun _ _ _ _ => trivial
  refine run_invariant hnew (P := fun _ _ => True) (fun _ command _ => ?_)
    (fun _ _ hs hc => hc.step hs) (fun _ _ _ _ hr hc => hc.requested hr)
    (everyCommand_true _ commands) hopened h
  cases command <;> simp [Command.Takes]

/-- An order is sent, and its cancel fails at the venue. -/
theorem broker_calls_in_doubt_cancel :
    (runCommands (Sample.host []) (.code Sample.decimal)
      [.submit Sample.buy, .cancel "o1" "k"]).core.trace.isEmpty = false ∧
    ∀ call ∈ (runCommands (Sample.host []) (.code Sample.decimal)
      [.submit Sample.buy, .cancel "o1" "k"]).core.trace, call.inDoubt = true :=
  ⟨by decide +kernel, broker_calls_in_doubt Sample.decimal (Sample.host []) (by decide +kernel)⟩

/-- The cancel fails, the venue is found to have the order accepted, and the same cancel is sent
again: its marker is a replay, and the broker is asked while the order stands `ACCEPTED`. -/
theorem cancel_replayed_while_accepted : ∃ call ∈ (runCommands (Sample.host []) (.code Sample.decimal)
      [.submit Sample.buy, .cancel "o1" "k", .reconcileOrder "o1", .cancel "o1" "k"]).core.trace,
    call.act = .cancel "acct" "o1" ∧ (call.ledger.held "acct" "o1").map (·.state) = some .accepted ∧
      call.inDoubt = false := by
  decide +kernel

end TradeEngine.Oms
