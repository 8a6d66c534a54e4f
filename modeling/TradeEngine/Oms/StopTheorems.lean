import TradeEngine.Oms.Lemmas.Protection
import TradeEngine.Oms.Theorems

/-!
# The stops of brackets

While a bracket has open quantity, its protective stop lives.
-/

namespace TradeEngine.Sample

open Oms

/-- A venue that also cancels and replaces, and reads back the orders `found`. -/
def venue (found : List VenueOrderState) : Host := { host [] with
  cancel := fun _ id => .ok ⟨id, "CANCELLED", none⟩
  replace := fun _ id _ => .ok ⟨id, "ACCEPTED", none⟩
  orders := fun _ _ => found }

/-- The fill that takes the whole entry. -/
def entryFill : Fill :=
  ⟨"f1", "p:entry", "a", aapl, units 10, units 100, .sim, noon, .buy, .zero, none, none, none,
    by decide +kernel, by decide, by decide⟩

/-- The bracket is created, its entry is sent and filled, and its exits are sent. -/
def filledBracket : List Command :=
  [.createBracket intent (units 10), .submit entry, .recordFill entryFill]

def expired (id : String) : VenueOrderState :=
  ⟨id, .expired, .zero, units 10, "2026-09-18T20:00:00+00:00"⟩

end TradeEngine.Sample

namespace TradeEngine.Oms

open Lib

variable {A : Arith}

/-! ## The stop of a bracket -/

/-- A synchronisation that returns while quantity is open leaves the stop live, and one that finds the
stop ended while quantity is open does not return. -/
theorem synchronized_stop_lives (D : RustDecimal) (H : Host) (w : World (.code D)) (cause : String)
    {changed entry stop : Order} (hentry : EntryOf w.ledger changed entry)
    (hstop : bracketStop (w.ledger.state entry.accountId) entry.orderId = some stop)
    (hs : Surfaces w.ledger entry stop cause) :
    let r := synchronizeBracket H changed cause w
    (r.1 = .ok () → OpenIn (.code D) (r.2.ledger.state entry.accountId) entry.orderId →
      ∃ o, r.2.ledger.held entry.accountId stop.orderId = some o ∧ terminal o.state = false) ∧
    (OpenIn (.code D) (w.ledger.state entry.accountId) entry.orderId → terminal stop.state = true →
      r.1 ≠ .ok ()) := by
  intro r
  have hlive : r.1 = .ok () → OpenIn (.code D) (w.ledger.state entry.accountId) entry.orderId →
      ∃ o, r.2.ledger.held entry.accountId stop.orderId = some o ∧ terminal o.state = false := by
    intro hok hopen
    have hpost := synchronizeBracket_protects (H := H) hentry hstop hs hopen w rfl
    change Prog.Post _ _ r at hpost
    rcases r with ⟨e | x, w'⟩
    · cases hok
    · exact hpost.2
  have htouch : Touch (.code D) (fun _ => True) (synchronizeBracket H changed cause) :=
    synchronizeBracket_touch
  refine ⟨fun hok hopen => hlive hok ?_, fun hopen hended => ?_⟩
  · refine hopen.congr ?_ fun id => ?_
    · exact (Walks.reached htouch stable_children (w := w) trivial rfl).symm
    · exact (Walks.reached htouch stable_filled (w := w) trivial rfl).symm
  · have hcur : Current stop w.core := .of_held hs.found (Ledger.bracketStop_held hstop)
    obtain ⟨o, ⟨ho, hid⟩, hterm⟩ : EndedNow stop.orderId r.2.core :=
      Walks.reached htouch stable_ended (w := w) trivial ⟨stop, ⟨hcur, rfl⟩, hended⟩
    have hat := Walks.reached htouch stable_at (w := w) trivial hs.found
    have hacc := (hid ▸ ho.at).unique hat
    intro hok
    obtain ⟨p, hp, hplive⟩ := hlive hok hopen
    have hheld := ho.held
    rw [hacc, hid] at hheld
    cases hheld.symm.trans hp
    rw [hterm] at hplive
    cases hplive

/-- A synchronisation of a filled bracket whose stop works. -/
theorem synchronized_stop_lives_filled :
    let w := runCommands (Sample.venue []) (.code Sample.decimal) Sample.filledBracket
    ∃ o, (synchronizeBracket (Sample.venue []) { Sample.entry with state := .filled } "again"
      w).2.ledger.held "a" "p:stop" = some o ∧ terminal o.state = false := by
  intro w
  have hstop : (bracketStop (w.ledger.state "a") "p:entry").map (fun o => (o.orderId, o.state)) =
      some ("p:stop", .accepted) := by decide +kernel
  have hctx : (w.ledger.context? "p:stop").map (·.order.accountId) = some "a" := by decide +kernel
  have hexact : sync (.code Sample.decimal) (w.ledger.state "a") "p:entry" =
      sync (Arith.exact (.code Sample.decimal)) (w.ledger.state "a") "p:entry" := by decide +kernel
  have hok : (synchronizeBracket (Sample.venue []) { Sample.entry with state := .filled } "again"
      w).1 = .ok () := by decide +kernel
  have hopen : OpenIn (.code Sample.decimal) ((synchronizeBracket (Sample.venue [])
      { Sample.entry with state := .filled } "again" w).2.ledger.state "a") "p:entry" :=
    ⟨.zero, by decide +kernel⟩
  clear_value w
  obtain ⟨stop, hstop, hfields⟩ := Option.map_eq_some_iff.mp hstop
  obtain ⟨hid, hacc⟩ := Prod.mk.inj hfields
  rw [← hid] at hctx ⊢
  have hne : stop.state ≠ .expired := by rw [hacc]; decide
  have hentry : EntryOf w.ledger { Sample.entry with state := .filled }
      { Sample.entry with state := .filled } := rfl
  exact (synchronized_stop_lives Sample.decimal (Sample.venue []) w "again" hentry hstop
    ⟨Option.map_eq_some_iff.mp hctx, fun plan hplan => hexact.symm.trans hplan,
      fun h => absurd h hne, fun h => absurd h hne⟩).1 hok hopen

/-- The venue reports the stop as expired and the reconciliation returns; so does a further
synchronisation, and the ten shares stand without a stop. -/
theorem expired_stop_is_silent :
    let H := Sample.venue [Sample.expired "p:stop"]
    let w := runCommands H (.code Sample.decimal) Sample.filledBracket
    let reconciled := reconcileOrder H "p:stop" w
    let r := synchronizeBracket H { Sample.entry with state := .filled } "again" reconciled.2
    reconciled.1.toOption.map (·.state) = some .expired ∧ r.1 = .ok () ∧
      (bracketStop (r.2.ledger.state "a") "p:entry").map (·.state) = some .expired ∧
      (r.2.ledger.state "a").filled "p:entry" = Sample.units 10 ∧
      exited (.code Sample.decimal) (r.2.ledger.state "a")
        (children "p:entry" (r.2.ledger.state "a").orders.values) = .ok .zero := by
  decide +kernel

/-- While its bracket has open quantity, a cancel that names a live stop does not return, and it
changes no order. -/
theorem cancel_keeps_open_stop (D : RustDecimal) (H : Host) (w : World (.code D)) (command : String)
    {stop : Order} {entry : String} (hnamed : w.ledger.getOrder stop.orderId = .ok stop)
    (ht : stop.orderType = .stop) (hparent : stop.parentOrderId = some entry)
    (hlive : terminal stop.state = false)
    (hopen : OpenIn (.code D) (w.ledger.state stop.accountId) entry) :
    let r := cancel H stop.orderId command w
    r.1.toOption = none ∧ ∀ a id, r.2.ledger.held a id = w.ledger.held a id := by
  intro r
  have hwalk : Writes (.code D) (fun _ => False) (Exposed stop entry) (cancel H stop.orderId command)
    fun _ _ => False := cancel_writes_none ht hparent hlive
  refine ⟨?_, fun a id => Walks.reached hwalk (stable_held not_false) (w := w) ⟨hnamed, hopen⟩ rfl⟩
  have hpost := hwalk w ⟨hnamed, hopen⟩
  change Prog.Post _ _ r at hpost
  revert hpost
  rcases r with ⟨e | x, w'⟩
  · exact fun _ => rfl
  · exact fun hpost => hpost.2.elim

/-- The stop of a filled bracket is cancelled in vain. -/
theorem cancel_keeps_open_stop_filled :
    let w := runCommands (Sample.venue []) (.code Sample.decimal) Sample.filledBracket
    (cancel (Sample.venue []) "p:stop" "k" w).1.toOption = none := by
  intro w
  have hstop : (w.ledger.getOrder "p:stop").toOption.map (fun o =>
      (o.orderId, o.accountId, o.orderType, o.parentOrderId, terminal o.state)) =
      some ("p:stop", "a", .stop, some "p:entry", false) := by decide +kernel
  have hopen : OpenIn (.code Sample.decimal) (w.ledger.state "a") "p:entry" :=
    ⟨.zero, by decide +kernel⟩
  clear_value w
  obtain ⟨stop, hstop, hfields⟩ := Option.map_eq_some_iff.mp hstop
  simp only [Prod.mk.injEq] at hfields
  obtain ⟨hid, hacc, ht, hparent, hlive⟩ := hfields
  rw [← hacc] at hopen
  rw [← hid] at hstop ⊢
  exact (cancel_keeps_open_stop Sample.decimal (Sample.venue []) w "k" (toOption_eq_some.mp hstop) ht
    hparent hlive hopen).1

/-- The stop is cancelled while the entry works, and the entry fills afterwards: ten shares are
open, and the stop is `CANCELLED`. -/
theorem stop_cancelled_before_the_fill :
    let H := Sample.venue []
    let w := runCommands H (.code Sample.decimal)
      [.createBracket Sample.intent (Sample.units 10), .submit Sample.entry]
    let cancelled := cancel H "p:stop" "k" w
    let filled := recordFill H Sample.entryFill cancelled.2
    cancelled.1.toOption.map (·.state) = some .cancelled ∧
      (cancelled.2.ledger.held "a" "p:entry").map (·.state) = some .accepted ∧
      (filled.2.ledger.held "a" "p:stop").map (·.state) = some .cancelled ∧
      (filled.2.ledger.state "a").filled "p:entry" = Sample.units 10 := by
  decide +kernel

end TradeEngine.Oms
