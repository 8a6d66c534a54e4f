import TradeEngine.Tos.Lemmas.Rows
import TradeEngine.Tos.Lemmas.Storage
import TradeEngine.Tos.Theorems

/-!
# The mirror session across restarts

Whatever the venue answers, however an append ends and wherever a process dies, an order is placed for
a ticket that the ledger recorded first, and for no ticket and no strategy order twice, never for one that
was refused, and never at a venue that the ledger halts. Where no drift was only replayed, none is
placed while the ledger has a doubt.
-/

namespace TradeEngine.Tos.Session

open Lib

section Histories

variable (A : Arith) (sha256 : String → String) (digest : VenueReconcile → String) (disk : Disk) (venue : String)

/-- What was placed at a venue so far: each order a ticket's whose event was committed before, each
ticket's once, and no strategy order on two of them. -/
structure MirroredOnce (s : State) : Prop where
  placed : s.passed.map (·.key) = s.world.sends.map (·.key)
  once : (s.passed.map (·.key)).Nodup
  ahead : ∀ p ∈ s.passed, p.ledger.rows <+: s.ledger.rows ∧ p.Ahead venue
  orders : ∀ p ∈ s.passed, ∀ p' ∈ s.passed, ∀ t, p.ticket = some t → ∀ t', p'.ticket = some t' →
    ∀ a ∈ t.allocations, ∀ b ∈ t'.allocations, a.strategyOrderId = b.strategyOrderId → p = p'

/-- In every history each strategy order is mirrored at most once, and recorded first. -/
theorem mirrored_at_most_once (O : Outside) (mirrored : List String) (acts : List Act) :
    MirroredOnce venue (history A sha256 digest disk venue O acts (.start venue mirrored)) := by
  have hok : (history A sha256 digest disk venue O acts (.start venue mirrored)).Ok venue :=
    history_ok O acts .start
  refine ⟨hok.placed, hok.once, hok.ahead, fun p hp p' hp' t ht t' ht' a ha b hb hid => ?_⟩
  have hkey := hok.same_key hp hp' ht ht' ha hb hid
  exact List.inj_on_of_nodup_map hok.once hp hp' hkey

/-- In a history that never only replayed a drift at a venue that no account halted any more, no order
was placed over a doubt. -/
theorem placed_over_no_doubt (O : Outside) (mirrored : List String) (acts : List Act)
    (hnone : (history A sha256 digest disk venue O acts (.start venue mirrored)).swallowed = []) :
    ∀ p ∈ (history A sha256 digest disk venue O acts (.start venue mirrored)).passed,
      Sure venue p.ledger p.earlier p.checks :=
  (history_ok O acts .start).sure hnone

/-- Whatever batches a store is given and wherever they fail, some disk has the session's appends of the
same events end so that the store's tables hold its ledger. -/
theorem store_holds_the_ledger (mirrored : List String) (batches : List (TradeEngine.Faults × List TradeEngine.Entry)) :
    ∃ disk : Disk, (appendAll A disk (batches.map fun b => b.2.map (·.event)) (.start venue mirrored)).ledger.HeldBy A
      (runBatches A (.opened .empty) batches).committed :=
  appendAll_held (.opened .empty) .opened

/-- No strategy order is placed that the ledger has refused, or comes to refuse. -/
theorem refused_never_placed (O : Outside) (mirrored : List String) (acts : List Act) :
    ∀ p ∈ (history A sha256 digest disk venue O acts (.start venue mirrored)).passed, ∀ t, p.ticket = some t →
      ∀ a ∈ t.allocations, ((history A sha256 digest disk venue O acts (.start venue mirrored)).ledger.mirror
        venue).refusedOrders.get a.strategyOrderId = none := by
  intro p hp t ht a ha
  have hok : (history A sha256 digest disk venue O acts (.start venue mirrored)).Ok venue := history_ok O acts .start
  have hapart : Apart ((history A sha256 digest disk venue O acts (.start venue mirrored)).ledger.mirror venue) := by
    refine within_history writes_apart.keeping (fun _ _ => writes_any) (State.start venue mirrored) ?_
    intro id hid
    simp [State.start, Ledger.opened, Ledger.mirror, Ledger.stateOf, AccountState.new, MirrorState.new] at hid
  exact hapart _ (by rw [hok.queued hp ht ha]; rfl)

/-- A halt never lifts itself, and nothing is placed under it: whatever is run at a venue that the ledger
halts, until an operator clears the halt, leaves it halted and places no order. -/
theorem halted_places_nothing (O : Outside) (mirrored : List String) (before after : List Act)
    (hacts : ∀ a ∈ after, a.keepsHalts = true)
    (hhalted : venue ∈ (history A sha256 digest disk venue O before (.start venue mirrored)).ledger.halted) :
    venue ∈ (history A sha256 digest disk venue O (before ++ after) (.start venue mirrored)).ledger.halted ∧
      (history A sha256 digest disk venue O (before ++ after) (.start venue mirrored)).passed =
        (history A sha256 digest disk venue O before (.start venue mirrored)).passed := by
  have hsplit : history A sha256 digest disk venue O (before ++ after) (.start venue mirrored) =
      history A sha256 digest disk venue O after
        (history A sha256 digest disk venue O before (.start venue mirrored)) := List.foldl_append
  have hok : (history A sha256 digest disk venue O (before ++ after) (.start venue mirrored)).Ok venue :=
    history_ok O (before ++ after) .start
  rw [hsplit] at hok ⊢
  generalize history A sha256 digest disk venue O before (.start venue mirrored) = s at hhalted hok ⊢
  have hlatched : Latched venue s (history A sha256 digest disk venue O after s) :=
    within_history keeping_latched (fun a ha => a.keepsHalts_writes (hacts a ha)) s
  obtain ⟨hstays, new, hnew, hunder⟩ := hlatched
  refine ⟨hstays hhalted, ?_⟩
  cases new with
  | nil => rw [hnew, List.append_nil]
  | cons p rest =>
      have hp : p ∈ (history A sha256 digest disk venue O after s).passed := by simp [hnew]
      exact absurd (hunder hhalted p List.mem_cons_self) (hok.running p hp)

end Histories

namespace Sample

def order (id : String) : Order :=
  ⟨id, "alpha", .single Tos.Sample.spy, .limit, .buy, Tos.Sample.units 1, "c1", Tos.Sample.noon,
    some (Tos.Sample.units 5), none, none, .day, .submitted, none, none⟩

def eleven : DateTime := ⟨.ymd 2026 3 2, 39600, 0, 0⟩

/-- A venue that shows the ticket's row from its fourteenth answer on. The first run is at eleven, and
what follows at noon. -/
def outside : Outside where
  toHost := { Tos.Sample.venueAt .submitted with
    now := fun n => .ok (.ok (if n < 27 then eleven else Tos.Sample.noon, true))
    readWorkingOrders := fun n => if n < 14 then .ok [] else (Tos.Sample.venueAt .submitted).readWorkingOrders n }
  now_plain := by simp
  canReadFills_plain := by simp [Tos.Sample.venueAt]

def hashOf (text : String) : String :=
  if text = "paper\x1fSPY\x1fBUY\x1f1\x1fLIMIT\x1f5\x1fDAY\x1fs2" then
    "46cd37789bc1904f0a5200d11062daca4046b5a23bc9f88a5de2abbedb40b928"
  else Tos.Sample.digest text

/-- Reconciles with the same note are the same here. -/
def noteOf (event : VenueReconcile) : String := event.note.getD "clean"

/-- A process that dies as its third append, the acknowledgements, is made. -/
def dies : Disk := fun n => if n = 2 then .fails (.fatal ⟨.host, "the process died"⟩) else .commits

def after (disk : Disk) (acts : List Act) : State :=
  history (.code Tos.Sample.decimal) hashOf noteOf disk "paper" outside acts (.start "paper" ["alpha"])

def once : List Act := [.restart false true, .run [order "s1"] false]

/-- The halt over the ticket with no acknowledgement is lifted, and another order is run at noon too. -/
def cleared : List Act :=
  once ++ [.restart false true, .collect, .clearHalt "checked", .restart false true, .run [order "s2"] false]

theorem once_quiet : (after dies once).swallowed = [] := by decide +kernel

theorem once_passed : (after dies once).passed ≠ [] := by decide +kernel

/-- Two orders are run: the first goes out, and the second, of an account that is not mirrored, is refused. -/
def mixed : List Act := [.restart false true, .run [order "s1", { order "s2" with accountId := "beta" }] false]

def stopped : List Act := once ++ [.restart false true, .collect]

theorem stopped_halted : "paper" ∈ (after dies stopped).ledger.halted := by decide +kernel

def reliable : Disk := fun _ => .commits

theorem later_keeps : ∀ a ∈ [Act.restart false true, .run [order "s2"] false], a.keepsHalts = true := by
  simp [Act.keepsHalts]

end Sample

/-- An order goes out and its acknowledgement is lost. -/
theorem placed_over_no_doubt_once : (Sample.after Sample.dies Sample.once).passed ≠ [] ∧
    ∀ p ∈ (Sample.after Sample.dies Sample.once).passed, Sure "paper" p.ledger p.earlier p.checks :=
  ⟨Sample.once_passed, placed_over_no_doubt (.code Tos.Sample.decimal) Sample.hashOf Sample.noteOf Sample.dies "paper"
    Sample.outside ["alpha"] Sample.once Sample.once_quiet⟩

/-- The second drift is of the same instant and is only replayed, and the order goes out over it. -/
theorem placed_over_a_doubt : ¬ ∀ acts : List Act, ∀ p ∈ (Sample.after Sample.dies acts).passed,
    Sure "paper" p.ledger p.earlier p.checks := by
  intro h
  have hdoubt : (Sample.after Sample.dies Sample.cleared).passed.any
      (fun p => p.checks.any fun e => !e.reconciled) = true := by decide +kernel
  obtain ⟨p, hp, hdrift⟩ := List.any_eq_true.mp hdoubt
  obtain ⟨e, he, hunclean⟩ := List.any_eq_true.mp hdrift
  rw [(h Sample.cleared p hp).clean e he] at hunclean
  cases hunclean

/-- The order of the mirrored account is placed, the other is refused. -/
theorem refused_never_placed_mixed :
    (Sample.after Sample.reliable Sample.mixed).ledger.rows.map (·.payload.tag) =
      ["VenueReconcile", "MirrorRefused", "MirrorQueued", "MirrorAck", "VenueReconcile"] ∧
    ∃ p ∈ (Sample.after Sample.reliable Sample.mixed).passed, ∃ t, p.ticket = some t ∧
      t.allocations.length = 1 ∧ ∀ a ∈ t.allocations, ((Sample.after Sample.reliable Sample.mixed).ledger.mirror
        "paper").refusedOrders.get a.strategyOrderId = none := by
  have hplaced : (Sample.after Sample.reliable Sample.mixed).passed.any
      (fun p => p.ticket.any fun t => t.allocations.length = 1) = true := by decide +kernel
  obtain ⟨p, hp, hticket⟩ := List.any_eq_true.mp hplaced
  obtain ⟨t, ht, hone⟩ := (Option.any_eq_true _ _).mp hticket
  exact ⟨by decide +kernel, p, hp, t, ht, of_decide_eq_true hone, refused_never_placed (.code Tos.Sample.decimal)
    Sample.hashOf Sample.noteOf Sample.reliable "paper" Sample.outside ["alpha"] Sample.mixed p hp t ht⟩

/-- The ticket with no acknowledgement halts the venue, and a later order finds it halted. -/
theorem halted_places_nothing_once :
    "paper" ∈ (Sample.after Sample.dies (Sample.stopped ++ [.restart false true, .run [Sample.order "s2"] false])).ledger.halted ∧
      (Sample.after Sample.dies (Sample.stopped ++ [.restart false true, .run [Sample.order "s2"] false])).passed =
        (Sample.after Sample.dies Sample.stopped).passed :=
  halted_places_nothing (.code Tos.Sample.decimal) Sample.hashOf Sample.noteOf Sample.dies "paper" Sample.outside
    ["alpha"] Sample.stopped [.restart false true, .run [Sample.order "s2"] false] Sample.later_keeps
    Sample.stopped_halted

end TradeEngine.Tos.Session
