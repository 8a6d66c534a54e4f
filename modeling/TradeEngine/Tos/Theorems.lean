import TradeEngine.Tos.Lemmas.Collect
import TradeEngine.Tos.Lemmas.Confirm
import TradeEngine.Tos.Lemmas.Netting
import TradeEngine.Tos.Lemmas.Reconcile

/-!
# The mirror broker over whole runs

Statements about every sequence of calls on one broker, whatever the host answers.
-/

namespace TradeEngine.Tos

open Lib

/-! ## Sends -/

/-- Each key is sent at most once, never while the venue is halted, and never once it was dropped
from the queue or known from a restored mirror; a drain that returns acknowledges what it took. -/
structure SendDiscipline (A : Arith) (sha256 : String → String) (H : Host) (start : World) : Prop where
  once : ∀ calls, ((run A sha256 H calls start).sends.map (·.key)).Nodup
  running : ∀ calls, ∀ s ∈ (run A sha256 H calls start).sends, s.halted = false
  sticky : ∀ calls later, (run A sha256 H calls start).broker.halted = true →
    (run A sha256 H (calls ++ later) start).broker.halted = true ∧
    (run A sha256 H (calls ++ later) start).sends = (run A sha256 H calls start).sends
  restored : ∀ calls m haltedVenues later,
    (restore A m haltedVenues (run A sha256 H calls start)).1 = .ok () →
    ∀ key ∈ m.tickets.entries.map (·.1),
    ∀ s ∈ (run A sha256 H (calls ++ .restore m haltedVenues :: later) start).sends.drop
      (run A sha256 H calls start).sends.length, s.key ≠ key
  dropped : ∀ calls key later,
    key ∈ (run A sha256 H calls start).broker.queue.map (·.venueOrderId) →
    key ∉ (run A sha256 H (calls ++ [.cancel key]) start).broker.queue.map (·.venueOrderId) →
    ∀ s ∈ (run A sha256 H (calls ++ .cancel key :: later) start).sends, s.key ≠ key
  acknowledged : ∀ calls report, (drain A H (run A sha256 H calls start)).1 = .ok report →
    report.acks.map (·.id) = (run A sha256 H calls start).broker.queue.map (·.venueOrderId)

variable (A : Arith) (sha256 : String → String) (H : Host)

theorem run_append (calls later : List Call) (w : World) :
    run A sha256 H (calls ++ later) w = run A sha256 H later (run A sha256 H calls w) := by
  unfold run
  exact List.foldl_append

theorem run_cons (c : Call) (later : List Call) (w : World) :
    run A sha256 H (c :: later) w = run A sha256 H later (c.exec A sha256 H w).2 := rfl

theorem run_ok (venue : String) (mirrored : List String) (halted : Bool) (calls : List Call) :
    (run A sha256 H calls (.start venue mirrored halted)).desk.Ok :=
  ok_move.path (run_moves A sha256 H calls _) (by constructor <;> simp [World.desk, World.start, Broker.new])

/-- Every run of a fresh broker keeps the discipline. -/
theorem send_discipline (venue : String) (mirrored : List String) (halted : Bool) :
    SendDiscipline A sha256 H (.start venue mirrored halted) := by
  constructor
  case once => exact fun calls => (run_ok A sha256 H venue mirrored halted calls).once
  case running => exact fun calls => (run_ok A sha256 H venue mirrored halted calls).running
  case sticky =>
    intro calls later hh
    rw [run_append]
    have hpath := run_moves A sha256 H later
      (run A sha256 H calls (.start venue mirrored halted))
    obtain ⟨sends, hsends, -, hnone⟩ := sends_path hpath
    refine ⟨halted_move.path hpath hh, ?_⟩
    rw [hnone hh, List.append_nil] at hsends
    exact hsends
  case restored =>
    intro calls m haltedVenues later hok key hkey
    rw [run_append, run_cons]
    generalize run A sha256 H calls (.start venue mirrored halted) = w at hok ⊢
    have hrestore : restore A m haltedVenues w =
        (.ok (), ((Call.restore m haltedVenues).exec A sha256 H w).2) := Prod.ext hok rfl
    have hshut := restore_shut hrestore hkey
    have hsame : ((Call.restore m haltedVenues).exec A sha256 H w).2.sends = w.sends := by
      obtain ⟨-, _, _, -, -, hw⟩ := restore_ok hrestore
      rw [hw]
    generalize ((Call.restore m haltedVenues).exec A sha256 H w).2 = w' at hshut hsame ⊢
    obtain ⟨sends, hsends, hnever, -⟩ := sends_path (run_moves A sha256 H later w')
    have hdrop : (run A sha256 H later w').sends.drop w.sends.length = sends := by
      change (run A sha256 H later w').sends = w'.sends ++ sends at hsends
      rw [hsends, hsame, List.drop_left]
    rw [hdrop]
    exact hnever key hshut
  case dropped =>
    intro calls key later hin hout
    have hok := run_ok A sha256 H venue mirrored halted calls
    rw [run_append, run_cons] at hout ⊢
    generalize run A sha256 H calls (.start venue mirrored halted) = w at hin hout hok ⊢
    have hsame : ((Call.cancel key).exec A sha256 H w).2.sends = w.sends :=
      cancel_sends.bind (fun _ => fun _ => rfl) w
    have hknown : key ∈ ((Call.cancel key).exec A sha256 H w).2.desk.keys :=
      known_move.path (exec_moves (.cancel key) w) (hok.known key hin)
    change key ∉ ((Call.cancel key).exec A sha256 H w).2.broker.queue.map (·.venueOrderId) at hout
    generalize ((Call.cancel key).exec A sha256 H w).2 = w' at hout hsame hknown ⊢
    obtain ⟨sends, hsends, hnever, -⟩ := sends_path (run_moves A sha256 H later w')
    intro s hs
    change (run A sha256 H later w').sends = w'.sends ++ sends at hsends
    rw [hsends, hsame, List.mem_append] at hs
    rcases hs with hs | hs
    · rintro rfl
      exact hok.unsent s hs hin
    · exact hnever key ⟨hknown, hout⟩ s hs
  case acknowledged =>
    intro calls report hok
    have h := drain_spec (A := A) (H := H) (run A sha256 H calls (.start venue mirrored halted))
    exact (h.ok (Prod.ext hok rfl)).2

/-! ## The expected book -/

/-- After a restore and any batches, drains and cancels that return, the expected book is what the
mirror expected with the journal replayed onto it, and no ticket leaves it twice, if no cancel is
confirmed by the venue for a ticket that a drain had acknowledged REJECTED. Where no operation
rounds, the book is the sum contract by contract. -/
theorem expected_is_journal (D : RustDecimal) (sha256 : String → String) (H : Host) {venue : String}
    {mirrored haltedVenues : List String} {halted : Bool} {calls : List Call} {m : MirrorState}
    {base : Book} {journal : List Entry} {w w' : World} (hm : m.Reached (.code D))
    (hrestore : restore (.code D) m haltedVenues
      (run (.code D) sha256 H calls (.start venue mirrored halted)) = (.ok (), w))
    (hbase : m.expected (.code D) = .ok base)
    (hrun : Run (.code D) sha256 H (Careful H) w journal w') :
    replay (.code D) base journal = .ok w'.broker.expected ∧ (gone journal).Nodup ∧
    ((replay (Arith.exact (.code D)) base journal).isOk = true → ∀ c : Contract,
      onHand c.hk w'.broker.expected =
        onHand c.hk base + (journal.map fun e => e.contracts c.hk).sum) := by
  have hdesk := run_ok (.code D) sha256 H venue mirrored halted calls
  have hbooked := run_booked (restore_booked hdesk hm.ticketKeyed hrestore hbase) hrun
  refine ⟨hbooked.expected, hbooked.once, fun hexact c => ?_⟩
  cases h : replay (Arith.exact (.code D)) base journal with
  | error e =>
      rw [h] at hexact
      cases hexact
  | ok book =>
      have hsame := replay_refuses (Arith.exact_le (.code D)) base book h
      rw [hbooked.expected] at hsame
      cases hsame
      exact replay_exact h c.hk

namespace Sample

def decimal : RustDecimal := ⟨fun a b => (a.add b).toOption, fun a b => (a.sub b).toOption⟩

def units (n : Nat) : Money := .ofNat n

def noon : DateTime := ⟨.ymd 2026 3 2, 43200, 0, 0⟩

def spy : Contract := .equity "SPY"

def buyOne : NOrder :=
  ⟨"s1", "alpha", .known (.single spy), .limit, .buy, units 1, .day, some (units 5)⟩

def digests : List (String × String) :=
  [("paper\x1fSPY\x1fBUY\x1f1\x1fLIMIT\x1f5\x1fDAY\x1fs1",
    "1445e034a071006586220e45db52df19c03d6e62e18946817e9a9d70c9daaf65"),
   ("paper\x1fSPY\x1fBUY\x1f5\x1fLIMIT\x1f5\x1fDAY\x1fs2\x1fs3",
    "1bdf5be4895968cbf595f29a6ada249454096e820b4ce0793454727c7a98356c"),
   ("paper\x1fSPY\x1fBUY\x1f70000000000000000000000000000\x1fLIMIT\x1f5\x1fDAY\x1fs5\x1fs6",
    "27f73258b75f079975273814d4cde452788d8215fc5511784908b59d743dcf5e")]

def digest (text : String) : String := ((digests.find? (·.1 = text)).map (·.2)).getD ""

def key : String := "tos:1445e034a071006586220e45db52df19"

/-- A venue whose one row, order 1001, is in the given state, and which answers a cancel of it with
CANCELED. -/
def venueAt (state : OrderState) : Host where
  now _ := .ok (.ok (noon, true))
  placeOrder _ _ _ := .ok (.result "SENT" none (some "1001") "WORKING" .submitted)
  readPositions _ := .ok []
  readWorkingOrders _ := .ok [.ok ⟨spy, .buy, units 1, .zero, .limit, some (units 5), state⟩]
  readOrderFills _ := .ok []
  cancelOrder _ _ := .ok (.result "CANCELED" "1001" none)
  canReadFills _ := .ok true
  canCancel _ := .ok true

def mirroring (state : OrderState) : World :=
  (restore (.code decimal) .new [] (run (.code decimal) digest (venueAt state) [.markConnected]
    (.start "paper" ["alpha"] false))).2

def queued (state : OrderState) : World :=
  (mirrorBatch (.code decimal) digest (venueAt state) [buyOne] .empty (mirroring state)).2

def drained (state : OrderState) : World := (drain (.code decimal) (venueAt state) (queued state)).2

def ended (state : OrderState) : World :=
  (cancel (.code decimal) (venueAt state) key (drained state)).2

def entries (state : OrderState) (report : DrainReport) : List Entry :=
  [] ++ ((queued state).broker.queue.drop (mirroring state).broker.queue.length).map .queued ++
    rejections (queued state).broker.queue report.acks

end Sample

theorem sample_run (state : OrderState) {allowed : List Entry → World → String → Prop}
    (hbatch : (mirrorBatch (.code Sample.decimal) Sample.digest (Sample.venueAt state) [Sample.buyOne]
      .empty (Sample.mirroring state)).1.isOk = true) {report : DrainReport}
    (hdrain : (drain (.code Sample.decimal) (Sample.venueAt state) (Sample.queued state)).1 = .ok report)
    {ack : Ack} (hcancel : (cancel (.code Sample.decimal) (Sample.venueAt state) Sample.key
      (Sample.drained state)).1 = .ok ack)
    (hallowed : allowed (Sample.entries state report) (Sample.drained state) Sample.key) :
    Run (.code Sample.decimal) Sample.digest (Sample.venueAt state) allowed (Sample.mirroring state)
      (Sample.entries state report ++ cancellation (Sample.drained state).broker Sample.key ack)
      (Sample.ended state) := by
  cases hb : (mirrorBatch (.code Sample.decimal) Sample.digest (Sample.venueAt state) [Sample.buyOne]
      .empty (Sample.mirroring state)).1 with
  | error e =>
      rw [hb] at hbatch
      cases hbatch
  | ok batch =>
      have hqueued : mirrorBatch (.code Sample.decimal) Sample.digest (Sample.venueAt state)
          [Sample.buyOne] .empty (Sample.mirroring state) = (.ok batch, Sample.queued state) := by
        rw [Sample.queued, ← hb]
      have hdrained : drain (.code Sample.decimal) (Sample.venueAt state) (Sample.queued state) =
          (.ok report, Sample.drained state) := by
        rw [Sample.drained, ← hdrain]
      have hended : cancel (.code Sample.decimal) (Sample.venueAt state) Sample.key
          (Sample.drained state) = (.ok ack, Sample.ended state) := by
        rw [Sample.ended, ← hcancel]
      exact .cancel (.drain (.mirrorBatch .start hqueued) hdrained) hallowed hended

/-- One share queued and accepted, and then cancelled at the venue. -/
theorem expected_is_journal_cancelled : ∃ journal w', Run (.code Sample.decimal) Sample.digest
      (Sample.venueAt .submitted) (Careful (Sample.venueAt .submitted)) (Sample.mirroring .submitted)
      journal w' ∧ gone journal = [Sample.key] ∧
    replay (.code Sample.decimal) .empty journal = .ok w'.broker.expected ∧ (gone journal).Nodup := by
  have hbatch : (mirrorBatch (.code Sample.decimal) Sample.digest (Sample.venueAt .submitted)
      [Sample.buyOne] .empty (Sample.mirroring .submitted)).1.isOk = true := by decide +kernel
  have hends : ((drain (.code Sample.decimal) (Sample.venueAt .submitted)
      (Sample.queued .submitted)).1.toOption.any fun report =>
        (cancel (.code Sample.decimal) (Sample.venueAt .submitted) Sample.key
          (Sample.drained .submitted)).1.toOption.any fun ack =>
            refusedKeys (Sample.entries .submitted report) = [] ∧
            gone (Sample.entries .submitted report ++
              cancellation (Sample.drained .submitted).broker Sample.key ack) = [Sample.key]) =
        true := by decide +kernel
  simp only [Option.any_eq_true, toOption_eq_some, decide_eq_true_eq] at hends
  obtain ⟨report, hdrain, ack, hcancel, hrefused, hgone⟩ := hends
  have hcareful : Careful (Sample.venueAt .submitted) (Sample.entries .submitted report)
      (Sample.drained .submitted) Sample.key := by
    intro hkey
    rw [hrefused] at hkey
    cases hkey
  have hrun := sample_run .submitted hbatch hdrain hcancel hcareful
  have hreached : MirrorState.Reached (.code Sample.decimal) .new := ⟨"acct", [], _, rfl, rfl⟩
  have hrestore : restore (.code Sample.decimal) .new [] (Tos.run (.code Sample.decimal) Sample.digest
      (Sample.venueAt .submitted) [.markConnected] (.start "paper" ["alpha"] false)) =
        (.ok (), Sample.mirroring .submitted) := by
    rw [Sample.mirroring]
    exact Prod.ext (by rfl) rfl
  have hbase : MirrorState.new.expected (.code Sample.decimal) = .ok .empty := rfl
  have hall := expected_is_journal Sample.decimal Sample.digest _ hreached hrestore hbase hrun
  exact ⟨_, _, hrun, hgone, hall.1, hall.2.1⟩

/-- One share queued and sent; its row reads CANCELLED and the drain rejects it; the venue confirms
a cancel of it, and the share leaves the book a second time. -/
theorem rejected_ticket_leaves_twice : ∃ journal w', Run (.code Sample.decimal) Sample.digest
      (Sample.venueAt .cancelled) (fun _ _ _ => True) (Sample.mirroring .cancelled) journal w' ∧
    ¬ (gone journal).Nodup ∧ onHand Sample.spy.hk w'.broker.expected = -1 := by
  have hbatch : (mirrorBatch (.code Sample.decimal) Sample.digest (Sample.venueAt .cancelled)
      [Sample.buyOne] .empty (Sample.mirroring .cancelled)).1.isOk = true := by decide +kernel
  have hends : ((drain (.code Sample.decimal) (Sample.venueAt .cancelled)
      (Sample.queued .cancelled)).1.toOption.any fun report =>
        (cancel (.code Sample.decimal) (Sample.venueAt .cancelled) Sample.key
          (Sample.drained .cancelled)).1.toOption.any fun ack =>
            gone (Sample.entries .cancelled report ++
              cancellation (Sample.drained .cancelled).broker Sample.key ack) =
                [Sample.key, Sample.key]) = true := by decide +kernel
  simp only [Option.any_eq_true, toOption_eq_some, decide_eq_true_eq] at hends
  obtain ⟨report, hdrain, ack, hcancel, hgone⟩ := hends
  have hbook : onHand Sample.spy.hk (Sample.ended .cancelled).broker.expected = -1 := by
    decide +kernel
  refine ⟨_, _, sample_run .cancelled hbatch hdrain hcancel trivial, ?_, hbook⟩
  rw [hgone]
  simp

/-! ## Netting -/

/-- The outcome of a batch of valid orders in which no amount was rounded. -/
theorem netting_outcome (D : RustDecimal) (sha256 : String → String) {orders : List NOrder}
    {venue : String} {mirrored : List String} {stamp : Stamp}
    {holdings : OMap (String × Contract) Money} {batch : Batch} (hvalid : ∀ o ∈ orders, o.Valid)
    (hexact : netStrategyOrders (Arith.exact (.code D)) sha256 orders venue mirrored stamp holdings =
      netStrategyOrders (.code D) sha256 orders venue mirrored stamp holdings)
    (h : netStrategyOrders (.code D) sha256 orders venue mirrored stamp holdings = .ok batch) :
    ∃ groups left, Netted orders holdings batch groups left :=
  netStrategyOrders_netted hvalid (hexact.trans h)

namespace Sample

def spyOrder (id account : String) (side : Side) (quantity : Money) : NOrder :=
  ⟨id, account, .known (.single spy), .limit, side, quantity, .day, some (units 5)⟩

/-- Two accounts buy; a third, which holds the share short, is refused. -/
def threeOrders : List NOrder :=
  [spyOrder "s2" "alpha" .buy (units 2), spyOrder "s3" "beta" .buy (units 3),
    spyOrder "s4" "gamma" .sell (units 1)]

/-- One contract more than 28 digits can count next to the rest. -/
def wideOrders : List NOrder :=
  [spyOrder "s5" "alpha" .buy (units (7 * 10 ^ 28)), spyOrder "s6" "alpha" .buy (units 1)]

theorem spyOrder_valid {id account : String} {side : Side} {quantity : Money} (hid : id ≠ "")
    (haccount : account ≠ "") (hpos : 0 < quantity.mantissa) : (spyOrder id account side quantity).Valid :=
  ⟨hid, haccount, Money.val_pos_iff.mpr hpos, fun _ => rfl⟩

end Sample

theorem netting_outcome_three : ∃ batch groups left,
    netStrategyOrders (.code Sample.decimal) Sample.digest Sample.threeOrders "paper"
      ["alpha", "beta", "gamma"] (.ok (Sample.noon, true)) .empty = .ok batch ∧
    batch.venueOrders.map (·.allocations.length) = [2] ∧ batch.refused.map (·.1) = ["s4"] ∧
    Netted Sample.threeOrders .empty batch groups left := by
  have hrun : (netStrategyOrders (.code Sample.decimal) Sample.digest Sample.threeOrders "paper"
      ["alpha", "beta", "gamma"] (.ok (Sample.noon, true)) .empty).toOption.any (fun batch =>
        batch.venueOrders.map (·.allocations.length) = [2] ∧ batch.refused.map (·.1) = ["s4"]) =
          true := by decide +kernel
  rw [Option.any_eq_true] at hrun
  obtain ⟨batch, hbatch, hshape⟩ := hrun
  rw [toOption_eq_some] at hbatch
  rw [decide_eq_true_eq] at hshape
  have hvalid : ∀ o ∈ Sample.threeOrders, o.Valid := by
    intro o ho
    simp only [Sample.threeOrders, List.mem_cons, List.not_mem_nil, or_false] at ho
    rcases ho with rfl | rfl | rfl <;>
      exact Sample.spyOrder_valid (by decide) (by decide) (by decide)
  obtain ⟨groups, left, hnetted⟩ := netting_outcome Sample.decimal Sample.digest hvalid
    (by decide +kernel) hbatch
  exact ⟨batch, groups, left, hbatch, hshape.1, hshape.2, hnetted⟩

/-- Two orders of one account on one contract, and a ticket for one contract less than their sum. -/
theorem wide_ticket_loses_a_contract : ∃ batch,
    netStrategyOrders (.code Sample.decimal) Sample.digest Sample.wideOrders "paper" ["alpha"]
      (.ok (Sample.noon, true)) .empty = .ok batch ∧
    batch.venueOrders.map (·.quantity.val) = [7 * 10 ^ 28] ∧
    batch.venueOrders.map (fun t => (t.allocations.map (·.quantity.val)).sum) = [7 * 10 ^ 28 + 1] := by
  have hrun : (netStrategyOrders (.code Sample.decimal) Sample.digest Sample.wideOrders "paper"
      ["alpha"] (.ok (Sample.noon, true)) .empty).toOption.any (fun batch =>
        batch.venueOrders.map (·.quantity.val) = [7 * 10 ^ 28] ∧
        batch.venueOrders.map (fun t => (t.allocations.map (·.quantity.val)).sum) =
          [7 * 10 ^ 28 + 1]) = true := by decide +kernel
  rw [Option.any_eq_true] at hrun
  obtain ⟨batch, hbatch, hshape⟩ := hrun
  rw [toOption_eq_some] at hbatch
  rw [decide_eq_true_eq] at hshape
  exact ⟨batch, hbatch, hshape.1, hshape.2⟩

/-! ## Fills -/

/-- The documents of one read of the venue's fills apply in any order to the mirror they were
collected for, if no ticket of it comes to `10¹⁴` units and all together not to `10²⁸` contracts. Every
ticket has then filled what its row says, and the same rows have nothing more to say. -/
theorem collected_documents_apply (D : RustDecimal) (H : Host) {m : MirrorState} {w w' : World}
    {rows : List FillRow} {c : Collection} {docs : List Doc} (hm : m.Reached (.code D)) (hs : m.Sized)
    (hread : fillsAt H (w.tick + 2) = .ok rows) (hc : collectFills (.code D) H m w = (.ok c, w'))
    (hdocs : docs.Perm c.docs) :
    ∃ m', docs.foldlM (Doc.apply (.code D)) m = .ok m' ∧
      (∀ key t row, m'.tickets.get key = some t → rowOf rows t = some row → t.filled = row.filled) ∧
      ∀ later : World, later.broker.connected = true → later.broker.venue = w.broker.venue →
        H.canReadFills later.tick = .ok true → (∃ stamp, H.now (later.tick + 1) = .ok (.ok stamp)) →
        fillsAt H (later.tick + 2) = .ok rows →
        (collectFills (.code D) H m' later).1 = .ok ⟨[], []⟩ := by
  obtain ⟨rows', hcollects⟩ := collectFills_ok hc
  obtain rfl : rows' = rows := Except.ok.inj (hcollects.read.symm.trans hread)
  obtain ⟨m', hrun, hsettled⟩ := (hcollects.settling (hm.ok hs) hs hdocs).run
  refine ⟨m', hrun, fun key t row ht hrow => hsettled.filled_eq ht hrow, ?_⟩
  intro later hconn hvenue hable hnow hagain
  exact (hsettled.collects hconn hvenue hable hnow hagain hcollects.once).run

namespace Sample

def mirrorEvent (seq : Nat) (kind : EventKind) (payload : Obj)
    (hb : checkPayload payload = .ok () := by decide +kernel)
    (hc : checkEvent ⟨"__venue__:paper", kind, payload, noon, none, 1, some seq⟩ = .ok () := by
      decide +kernel) : Event :=
  ⟨⟨"__venue__:paper", kind, payload, noon, none, 1, some seq⟩, hb, hc⟩

def ticket (n : Money) (places : List MirrorAllocation) : Obj :=
  .mQueued ⟨"paper", "t1", .single spy, .buy, n, .market, none, .day, places, noon⟩

def acked : Obj := .mAck ⟨"paper", "t1", .accepted, "ok", noon, some "11", none⟩

def threeLog : List Event :=
  [mirrorEvent 1 .mirrorQueued (ticket (units 3)
    [⟨"s1", "alpha", units 2, by decide, rfl⟩, ⟨"s2", "beta", units 1, by decide, rfl⟩]),
   mirrorEvent 2 .mirrorAck acked]

def wideLog : List Event :=
  [mirrorEvent 1 .mirrorQueued (ticket (units (10 ^ 15))
    [⟨"s1", "alpha", units (10 ^ 15), by decide, rfl⟩]),
   mirrorEvent 2 .mirrorAck acked]

def filling (row : FillRow) : Host :=
  { venueAt .filled with readOrderFills := fun _ => .ok [.ok row] }

def threeRow : FillRow :=
  ⟨"11", units 3, some (units 2), .filled, by decide, rfl, by decide, by decide, by decide, by decide⟩

def wideRow : FillRow :=
  ⟨"11", units (10 ^ 15), some (units 2), .filled, by decide, rfl, by decide, by decide, by decide,
    by decide⟩

def connected : World :=
  ⟨{ Broker.new "paper" ["alpha", "beta"] false with connected := true }, 0, []⟩

def mirrorOf (log : List Event) : Option MirrorState :=
  (log.foldlM (applyEvent (.code decimal)) (.new "__venue__:paper")).toOption.map (·.mirror)

theorem mirrorOf_reached {log : List Event} {m : MirrorState} (h : mirrorOf log = some m) :
    m.Reached (.code decimal) := by
  obtain ⟨st, hst, hm⟩ := Option.map_eq_some_iff.mp h
  exact ⟨_, log, st, toOption_eq_some.mp hst, hm⟩

end Sample

/-- Both documents of a filled ticket, the close before the fill. -/
theorem collected_documents_apply_three : ∃ m c w' m', Sample.mirrorOf Sample.threeLog = some m ∧
    collectFills (.code Sample.decimal) (Sample.filling Sample.threeRow) m Sample.connected =
      (.ok c, w') ∧ c.docs.length = 2 ∧
    c.docs.reverse.foldlM (Doc.apply (.code Sample.decimal)) m = .ok m' ∧
    (collectFills (.code Sample.decimal) (Sample.filling Sample.threeRow) m' Sample.connected).1 =
      .ok ⟨[], []⟩ := by
  have hall : (Sample.mirrorOf Sample.threeLog).any (fun m =>
      decide ((m.tickets.values.all fun t => t.queued.units < 10 ^ 14) ∧
        (m.tickets.sumBy fun t => t.queued.units * t.queued.span) < 10 ^ 28) &&
      (collectFills (.code Sample.decimal) (Sample.filling Sample.threeRow) m
        Sample.connected).1.toOption.any fun c => c.docs.length = 2) = true := by decide +kernel
  rw [Option.any_eq_true] at hall
  obtain ⟨m, hm, hall⟩ := hall
  rw [Bool.and_eq_true, decide_eq_true_eq, List.all_eq_true, Option.any_eq_true] at hall
  obtain ⟨⟨heach, hsum⟩, c, hc, hlen⟩ := hall
  rw [toOption_eq_some] at hc
  rw [decide_eq_true_eq] at hlen
  have hs : m.Sized :=
    ⟨fun key t ht => by simpa using heach t (OMap.mem_values_of_get ht), hsum⟩
  have hrun : collectFills (.code Sample.decimal) (Sample.filling Sample.threeRow) m Sample.connected =
      (.ok c, (collectFills (.code Sample.decimal) (Sample.filling Sample.threeRow) m
        Sample.connected).2) := by rw [← hc]
  obtain ⟨m', hdocs, -, hagain⟩ := collected_documents_apply Sample.decimal
    (Sample.filling Sample.threeRow) (Sample.mirrorOf_reached hm) hs rfl hrun (List.reverse_perm c.docs)
  exact ⟨m, c, _, m', hm, hrun, hlen, hdocs, hagain Sample.connected rfl rfl rfl ⟨_, rfl⟩ rfl⟩

/-- A ticket of `10¹⁵` shares reads filled; its fill is collected, and the fold refuses it, because the
share's product does not fit. -/
theorem wide_fill_is_refused : ∃ m c w', Sample.mirrorOf Sample.wideLog = some m ∧
    collectFills (.code Sample.decimal) (Sample.filling Sample.wideRow) m Sample.connected =
      (.ok c, w') ∧
    (c.docs.foldlM (Doc.apply (.code Sample.decimal)) m).toOption.isNone = true := by
  have hall : (Sample.mirrorOf Sample.wideLog).any (fun m =>
      (collectFills (.code Sample.decimal) (Sample.filling Sample.wideRow) m
        Sample.connected).1.toOption.any fun c =>
          (c.docs.foldlM (Doc.apply (.code Sample.decimal)) m).toOption.isNone) = true := by
    decide +kernel
  rw [Option.any_eq_true] at hall
  obtain ⟨m, hm, hall⟩ := hall
  rw [Option.any_eq_true] at hall
  obtain ⟨c, hc, hrefused⟩ := hall
  rw [toOption_eq_some] at hc
  exact ⟨m, c, _, hm, by rw [← hc], hrefused⟩

/-! ## Read-backs -/

/-- In a drain against a truthful venue that lists the rows of the ticket just sent behind those of the
tickets before it, every ticket matches its own rows only, and is acknowledged as they say. -/
theorem read_backs_confirm (D : RustDecimal) (H : Host) {w w' : World} {report : DrainReport}
    {shown : List Shown} (h : drain (.code D) H w = (.ok report, w'))
    (htrue : Truthful (.code D) [] 0 (looks (.code D) H w) shown)
    (horder : ∀ n l s, (looks (.code D) H w)[n]? = some l → shown[n]? = some s → InOrder n l s) :
    (looks (.code D) H w = [] ∨ report.acks = (looks (.code D) H w).map (·.ack)) ∧
    ∀ n l s rows, (looks (.code D) H w)[n]? = some l → shown[n]? = some s → l.rows = some rows →
      Confirmed n l s rows := by
  refine ⟨drain_looks h, ?_⟩
  unfold looks at htrue horder ⊢
  split
  · rename_i before w₁ hstart
    rw [hstart] at htrue horder
    intro n l s rows hl hs hr
    have hall := lookTickets_confirmed (n := 0) (by simp) (by simp) htrue
      (fun k l s hl hs => (Nat.zero_add k).symm ▸ horder k l s hl hs) n l s rows hl hs hr
    rwa [Nat.zero_add] at hall
  · intro n l s rows hl
    simp at hl

namespace Sample

def qqq : Contract := .equity "QQQ"

def oneOf (c : Contract) (id : String) : NOrder :=
  ⟨id, "alpha", .known (.single c), .limit, .buy, units 1, .day, some (units 5)⟩

def working (c : Contract) : Row := ⟨c, .buy, units 1, .zero, .limit, some (units 5), .submitted⟩

def pairDigest (text : String) : String :=
  if text = "paper\x1fSPY\x1fBUY\x1f1\x1fLIMIT\x1f5\x1fDAY\x1fs1" then
    "1445e034a071006586220e45db52df19c03d6e62e18946817e9a9d70c9daaf65"
  else if text = "paper\x1fQQQ\x1fBUY\x1f1\x1fLIMIT\x1f5\x1fDAY\x1fs2" then
    "c13b73073571ba24f471dcffcc73a16ca5a09b431b7987789c3d5a185c053be2"
  else ""

/-- A venue that lists the first row alone until the second ticket is sent, and then both as given. -/
def listing (later : List Row) : Host :=
  { venueAt .submitted with
    readWorkingOrders := fun n => .ok ((if n ≤ 10 then [working spy] else later).map .ok) }

def paired (later : List Row) : World :=
  (mirrorBatch (.code decimal) pairDigest (listing later) [oneOf spy "s1", oneOf qqq "s2"] .empty
    connected).2

def ticketOf (c : Contract) (id key : String) : Ticket :=
  ⟨key, .single c, .limit, .buy, units 1, noon, .day, some (units 5), [⟨id, "alpha", units 1⟩]⟩

def spyOwner : Owner := ⟨ticketOf spy "s1" key, 0, 0⟩

def qqqOwner : Owner := ⟨ticketOf qqq "s2" "tos:c13b73073571ba24f471dcffcc73a16c", 1, 0⟩

theorem rowOf_spy : RowOf (.code decimal) spyOwner (working spy) := ⟨rfl, by decide +kernel⟩

theorem rowOf_qqq : RowOf (.code decimal) qqqOwner (working qqq) := ⟨rfl, by decide +kernel⟩

/-- Whose the rows of the two reads are, for a second read of two rows. -/
def pairShown (owners : List Owner) : List Shown := [⟨true, [spyOwner]⟩, ⟨true, owners⟩]

theorem pair_truthful {owners : List Owner} {rows : List Row} {l₁ l₂ : Look}
    (h₁ : l₁.ticket = spyOwner.ticket) (h₂ : l₂.ticket = qqqOwner.ticket)
    (hr₁ : l₁.rows = some [working spy]) (hr₂ : l₂.rows = some rows)
    (hof : List.Forall₂ (RowOf (.code decimal)) owners rows) (hperm : owners.Perm [spyOwner, qqqOwner]) :
    Truthful (.code decimal) [] 0 [l₁, l₂] (pairShown owners) := by
  refine .cons (fun rows' h => ?_) (.cons (fun rows' h => ?_) .nil)
  · rw [hr₁] at h
    obtain rfl := Option.some.inj h
    rw [h₁]
    exact ⟨.cons rowOf_spy .nil, .refl _⟩
  · rw [hr₂] at h
    obtain rfl := Option.some.inj h
    rw [h₁, h₂]
    exact ⟨hof, hperm⟩

end Sample

/-- The second ticket's row listed last: both are accepted. -/
theorem read_backs_confirm_pair : ∃ report w' l₁ l₂,
    drain (.code Sample.decimal) (Sample.listing [Sample.working Sample.spy, Sample.working Sample.qqq])
      (Sample.paired [Sample.working Sample.spy, Sample.working Sample.qqq]) = (.ok report, w') ∧
    report.acks = [l₁, l₂].map Look.ack ∧ l₁.ack.status = .accepted ∧ l₂.ack.status = .accepted := by
  have hlooks : (looks (.code Sample.decimal)
      (Sample.listing [Sample.working Sample.spy, Sample.working Sample.qqq])
      (Sample.paired [Sample.working Sample.spy, Sample.working Sample.qqq])).map
        (fun l => (l.ticket, l.rows)) =
      [(Sample.spyOwner.ticket, some [Sample.working Sample.spy]),
        (Sample.qqqOwner.ticket, some [Sample.working Sample.spy, Sample.working Sample.qqq])] := by
    decide +kernel
  have hdrain : (drain (.code Sample.decimal)
      (Sample.listing [Sample.working Sample.spy, Sample.working Sample.qqq])
      (Sample.paired [Sample.working Sample.spy, Sample.working Sample.qqq])).1.isOk = true := by
    decide +kernel
  obtain ⟨l₁, rest, hl, h₁, hrest⟩ := List.map_eq_cons_iff.mp hlooks
  obtain ⟨l₂, rest', rfl, h₂, hrest'⟩ := List.map_eq_cons_iff.mp hrest
  obtain rfl := List.map_eq_nil_iff.mp hrest'
  obtain ⟨ht₁, hr₁⟩ := Prod.mk.inj h₁
  obtain ⟨ht₂, hr₂⟩ := Prod.mk.inj h₂
  cases hrun : (drain (.code Sample.decimal)
      (Sample.listing [Sample.working Sample.spy, Sample.working Sample.qqq])
      (Sample.paired [Sample.working Sample.spy, Sample.working Sample.qqq])).1 with
  | error f =>
      rw [hrun] at hdrain
      cases hdrain
  | ok report =>
      have hends := Prog.returned hrun
      have htrue := Sample.pair_truthful ht₁ ht₂ hr₁ hr₂
        (.cons Sample.rowOf_spy (.cons Sample.rowOf_qqq .nil)) (.refl _)
      rw [← hl] at htrue
      obtain ⟨hacks, hall⟩ := read_backs_confirm Sample.decimal _ hends htrue (by
        intro n l s hl' hs
        rw [hl] at hl'
        match n with
        | 0 =>
            obtain rfl := Option.some.inj hl'
            obtain rfl := Option.some.inj hs
            exact ⟨fun _ => by rw [hr₁]; rfl, fun _ => ⟨[], _, rfl, by simp, by simp [Sample.spyOwner]⟩⟩
        | 1 =>
            obtain rfl := Option.some.inj hl'
            obtain rfl := Option.some.inj hs
            exact ⟨fun _ => by rw [hr₂]; rfl, fun _ => ⟨[Sample.spyOwner], [Sample.qqqOwner], rfl,
              by simp [Sample.spyOwner], by simp [Sample.qqqOwner]⟩⟩
        | n + 2 => simp at hl')
      rw [hl] at hacks hall
      refine ⟨report, _, l₁, l₂, hends, hacks.resolve_left (by simp), ?_, ?_⟩
      · exact (hall 0 l₁ _ _ rfl rfl hr₁).accepted rfl (by decide +kernel)
      · exact (hall 1 l₂ _ _ rfl rfl hr₂).accepted rfl (by decide +kernel)

/-- The second ticket's row listed first, at the place claimed for the first ticket: the row is live,
and the ticket stays PENDING. -/
theorem relisted_row_is_not_found : ∃ report w' l₁ l₂,
    drain (.code Sample.decimal) (Sample.listing [Sample.working Sample.qqq, Sample.working Sample.spy])
      (Sample.paired [Sample.working Sample.qqq, Sample.working Sample.spy]) = (.ok report, w') ∧
    report.acks = [l₁, l₂].map Look.ack ∧
    looks (.code Sample.decimal)
      (Sample.listing [Sample.working Sample.qqq, Sample.working Sample.spy])
      (Sample.paired [Sample.working Sample.qqq, Sample.working Sample.spy]) = [l₁, l₂] ∧
    Truthful (.code Sample.decimal) [] 0 [l₁, l₂]
      (Sample.pairShown [Sample.qqqOwner, Sample.spyOwner]) ∧
    ¬ Confirmed 1 l₂ ⟨true, [Sample.qqqOwner, Sample.spyOwner]⟩
      [Sample.working Sample.qqq, Sample.working Sample.spy] := by
  have hlooks : (looks (.code Sample.decimal)
      (Sample.listing [Sample.working Sample.qqq, Sample.working Sample.spy])
      (Sample.paired [Sample.working Sample.qqq, Sample.working Sample.spy])).map
        (fun l => (l.ticket, l.rows, l.ack.status)) =
      [(Sample.spyOwner.ticket, some [Sample.working Sample.spy], .accepted),
        (Sample.qqqOwner.ticket, some [Sample.working Sample.qqq, Sample.working Sample.spy],
          .pending)] := by decide +kernel
  have hdrain : (drain (.code Sample.decimal)
      (Sample.listing [Sample.working Sample.qqq, Sample.working Sample.spy])
      (Sample.paired [Sample.working Sample.qqq, Sample.working Sample.spy])).1.isOk = true := by
    decide +kernel
  obtain ⟨l₁, rest, hl, h₁, hrest⟩ := List.map_eq_cons_iff.mp hlooks
  obtain ⟨l₂, rest', rfl, h₂, hrest'⟩ := List.map_eq_cons_iff.mp hrest
  obtain rfl := List.map_eq_nil_iff.mp hrest'
  simp only [Prod.mk.injEq] at h₁ h₂
  cases hrun : (drain (.code Sample.decimal)
      (Sample.listing [Sample.working Sample.qqq, Sample.working Sample.spy])
      (Sample.paired [Sample.working Sample.qqq, Sample.working Sample.spy])).1 with
  | error f =>
      rw [hrun] at hdrain
      cases hdrain
  | ok report =>
      have hends := Prog.returned hrun
      have hacks := drain_looks hends
      rw [hl] at hacks
      refine ⟨report, _, l₁, l₂, hends, hacks.resolve_left (by simp), hl,
        Sample.pair_truthful h₁.1 h₂.1 h₁.2.1 h₂.2.1
          (.cons Sample.rowOf_qqq (.cons Sample.rowOf_spy .nil)) (.swap _ _ _), fun hconf => ?_⟩
      have haccepted := hconf.accepted rfl (by decide +kernel)
      rw [h₂.2.2] at haccepted
      cases haccepted

/-! ## The drift check -/

/-- Where no sum rounds, a check reports that the venue agrees exactly when no row is in an unknown
state and every contract's position and live remainders are what the mirror expects; otherwise it
names each contract with an unknown row or another total, once, and no other. -/
theorem reconcile_exact (D : RustDecimal) {venue : String} {t : DateTime} {expected held rest : Book}
    {positions : List (Contract × Money)} {working : List Row} {unknown : OMap Contract Unit}
    (hvenue : venue ≠ "") (hexpected : ByContract expected)
    (h : Compared (.code D) positions working held rest unknown) :
    ∃ r, reconcile (.code D) venue (.ok (t, true)) expected positions working = .ok r ∧
      (r.reconciled = true ↔ (∀ row ∈ working, row.state ≠ .pendingUnknown) ∧
        ∀ c, positionOf positions c + remainderOf working c = (expected.have c).val) ∧
      ∃ (cs : List Contract) (names : List String), cs.Nodup ∧
        (∀ c, c ∈ cs ↔ Unknown working c ∨
          positionOf positions c + remainderOf working c ≠ (expected.have c).val) ∧
        cs.mapM Contract.symbol = .ok names ∧ r.drift = sortTexts names := by
  obtain ⟨r, cs, names, hr, hnodup, hcs, hnames, hdrift, hempty⟩ := h.reconcile (t := t) hexpected hvenue
  refine ⟨r, hr, ?_, cs, names, hnodup, hcs, hnames, hdrift⟩
  rw [hempty, List.eq_nil_iff_forall_not_mem]
  constructor
  · intro hnone
    refine ⟨fun row hrow hstate => ?_, fun c => ?_⟩
    · exact hnone row.contract ((hcs _).mpr (.inl ⟨row, hrow, rfl, hstate⟩))
    · by_contra hne
      exact hnone c ((hcs c).mpr (.inr hne))
  · rintro ⟨hknown, hsame⟩ c hc
    rcases (hcs c).mp hc with ⟨row, hrow, -, hstate⟩ | hne
    · exact hknown row hrow hstate
    · exact hne (hsame c)

namespace Sample

def restingRow : Row := ⟨spy, .buy, units 3, units 2, .limit, some (units 5), .accepted⟩

def expecting (n : Nat) : Book := OMap.empty.insert spy.hk spy (units n)

end Sample

/-- Two shares held and one still to come are the three expected. -/
theorem reconcile_exact_three : ∃ r, reconcile (.code Sample.decimal) "paper" (.ok (Sample.noon, true))
    (Sample.expecting 3) [(Sample.spy, Sample.units 2)] [Sample.restingRow] = .ok r ∧
      (r.reconciled = true ↔ (∀ row ∈ [Sample.restingRow], row.state ≠ .pendingUnknown) ∧
        ∀ c, positionOf [(Sample.spy, Sample.units 2)] c + remainderOf [Sample.restingRow] c =
          ((Sample.expecting 3).have c).val) := by
  have hheld : (positionBook (Arith.code Sample.decimal).exact [(Sample.spy, Sample.units 2)]).toOption.map
      OMap.items = some (Sample.expecting 2).items := by decide +kernel
  have hrest : (resting (Arith.code Sample.decimal).exact [Sample.restingRow]).toOption.map
      (fun b => (b.1.items, b.2.items)) = some ((Sample.expecting 1).items, []) := by decide +kernel
  have hsame : ∀ b b' : Book, b.items = b'.items → b = b' := by
    intro b b' h
    cases b
    cases b'
    cases h
    rfl
  obtain ⟨held, hheld, hitems⟩ := Option.map_eq_some_iff.mp hheld
  obtain rfl := hsame _ _ hitems
  obtain ⟨⟨rest, unknown⟩, hrest, hboth⟩ := Option.map_eq_some_iff.mp hrest
  obtain ⟨hitems, hnone⟩ := Prod.mk.inj hboth
  obtain rfl := hsame _ _ hitems
  have htotal : ∀ c, ∃ total, Ops.add (Arith.code Sample.decimal).exact ((Sample.expecting 2).have c)
      ((Sample.expecting 1).have c) = .ok total := by
    intro c
    rw [Book.have, Book.have, Sample.expecting, Sample.expecting, OMap.get_insert, OMap.get_insert]
    split_ifs
    · exact ⟨Sample.units 3, toOption_eq_some.mp (by decide +kernel)⟩
    · rw [OMap.get_empty]
      exact ⟨.zero, toOption_eq_some.mp (by decide +kernel)⟩
  have hcompared : Compared (.code Sample.decimal) [(Sample.spy, Sample.units 2)] [Sample.restingRow]
      (Sample.expecting 2) (Sample.expecting 1) unknown :=
    ⟨toOption_eq_some.mp hheld, toOption_eq_some.mp hrest, htotal⟩
  have hvenue : "paper" ≠ "" := by decide
  obtain ⟨r, hr, hiff, -⟩ := reconcile_exact Sample.decimal (t := Sample.noon) hvenue
    (ByContract.empty.insert Sample.spy (Sample.units 3)) hcompared
  exact ⟨r, hr, hiff⟩

/-- The check sums Decimals, and names a contract with an unknown row whatever its total. -/
theorem reconcile_rounds_and_names_unknown :
    ((reconcile (.code Sample.decimal) "paper" (.ok (Sample.noon, true))
      (Sample.expecting (5 * 10 ^ 28)) [(Sample.spy, Sample.units (5 * 10 ^ 28)), (Sample.spy, Sample.units 1)]
      []).toOption.map (·.reconciled) = some true ∧
      positionOf [(Sample.spy, Sample.units (5 * 10 ^ 28)), (Sample.spy, Sample.units 1)] Sample.spy +
        remainderOf [] Sample.spy ≠ ((Sample.expecting (5 * 10 ^ 28)).have Sample.spy).val) ∧
    (reconcile (.code Sample.decimal) "paper" (.ok (Sample.noon, true)) .empty []
      [{ Sample.restingRow with state := .pendingUnknown }]).toOption.map (·.drift) = some ["SPY"] ∧
      positionOf [] Sample.spy + remainderOf [{ Sample.restingRow with state := .pendingUnknown }] Sample.spy =
        (Book.have .empty Sample.spy).val := by
  decide +kernel

end TradeEngine.Tos
