import TradeEngine.Ledger.Lemmas.Expected
import TradeEngine.Tos.Lemmas.Netting
import TradeEngine.Tos.Lemmas.Sends

/-!
# The journal of the expected book

What the trading calls that returned put into the expected book and took out of it, entry by entry.
A drain takes out what it acknowledged REJECTED, a cancel what it dropped or what still rested.
-/

namespace TradeEngine.Tos

open Lib Prog Relation

/-! ## Entries -/

/-- One change of the expected book. -/
inductive Entry where
  | queued (t : Ticket)
  | rejected (t : Ticket)
  | dropped (t : Ticket)
  | cancelled (s : Sent)

namespace Entry

def ticket : Entry → Ticket
  | .queued t | .rejected t | .dropped t => t
  | .cancelled s => s.ticket

def sign : Entry → Int
  | .queued _ => 1
  | _ => -1

/-- The units that move: what still rested for a cancel, else all. -/
def units : Entry → Option Money
  | .cancelled s => some s.resting
  | _ => none

def key (e : Entry) : String := e.ticket.venueOrderId

def leaves : Entry → Bool
  | .queued _ => false
  | _ => true

def isRejected : Entry → Bool
  | .rejected _ => true
  | _ => false

end Entry

def replay (A : Arith) (book : Book) (journal : List Entry) : R Book :=
  journal.foldlM (fun b e => addTicket A b e.ticket e.sign e.units) book

def rejections (queue : List Ticket) (acks : List Ack) : List Entry :=
  ((queue.zip acks).filter fun p => p.2.status = .rejected).map fun p => .rejected p.1

/-- What a cancel takes out: the queued ticket, or what rests of a sent one once the venue said so. -/
def cancellation (b : Broker) (key : String) (ack : Ack) : List Entry :=
  if key ∈ b.cancelled then []
  else
    match b.queue.find? (·.venueOrderId = key) with
    | some t => [.dropped t]
    | none =>
      match b.sent.get key with
      | some s => if ack.status = .accepted then [.cancelled s] else []
      | none => []

variable {A : Arith} {sha256 : String → String} {H : Host} {α : Type}

theorem replay_append {book : Book} {l l' : List Entry} :
    replay A book (l ++ l') = replay A book l >>= fun b => replay A b l' := by
  unfold replay
  exact List.foldlM_append

theorem replay_singleton {book : Book} {e : Entry} :
    replay A book [e] = addTicket A book e.ticket e.sign e.units := by
  simp [replay]

/-! ## What a program that returned did to the book -/

@[simp] theorem attempt_ok {p : M α} {r : Except Fault α} {w w' : World} :
    attempt p w = (.ok r, w') ↔ (p w).1 = r ∧ (p w).2 = w' := by simp [attempt]

theorem Still.broker {p : M α} (h : Still World.held p) (w : World) : (p w).2.broker = w.broker :=
  congrArg Prod.fst (h w)

theorem Still.broker_ok {p : M α} (h : Still World.held p) {w w' : World} {r : Except Fault α}
    (hp : p w = (r, w')) : w'.broker = w.broker := by
  have hb := Still.broker h w
  rwa [hp] at hb

theorem takeOut_ok {e : Contract × Money} {u : Unit} {w w' : World} :
    takeOut A e w = (.ok u, w') ↔ ∃ book, (do w.broker.expected.add A e.1 (← Ops.mulI A e.2 (-1))) =
      (.ok book : R Book) ∧ { w with broker := { w.broker with expected := book } } = w' := by
  simp only [takeOut, bind_ok, getBroker_ok, lift_ok, modify_ok]
  constructor
  · rintro ⟨_, _, ⟨rfl, rfl⟩, book, _, ⟨hbook, rfl⟩, rfl⟩
    exact ⟨book, hbook, rfl⟩
  · rintro ⟨book, hbook, rfl⟩
    exact ⟨_, _, ⟨rfl, rfl⟩, book, _, ⟨hbook, rfl⟩, rfl⟩

theorem takeAll_ok {l : List (Contract × Money)} {u : Unit} {w w' : World}
    (h : forEach (takeOut A) l w = (.ok u, w')) : ∃ book,
      l.foldlM (fun b e => do b.add A e.1 (← Ops.mulI A e.2 (-1))) w.broker.expected = .ok book ∧
      w' = { w with broker := { w.broker with expected := book } } := by
  induction l generalizing w with
  | nil =>
      obtain ⟨-, rfl⟩ := pure_ok.mp h
      exact ⟨_, rfl, rfl⟩
  | cons e l ih =>
      obtain ⟨_, m, hhead, htail⟩ := bind_ok.mp h
      obtain ⟨book, hbook, rfl⟩ := takeOut_ok.mp hhead
      obtain ⟨last, hlast, rfl⟩ := ih htail
      refine ⟨last, ?_, rfl⟩
      rw [List.foldlM_cons, hbook]
      exact hlast

theorem unexpect_ok {t : Ticket} {units : Option Money} {u : Unit} {w w' : World}
    (h : unexpect A t units w = (.ok u, w')) : ∃ book,
      addTicket A w.broker.expected t (-1) units = .ok book ∧
      w' = { w with broker := { w.broker with expected := book } } := by
  obtain ⟨contracts, _, hlift, htake⟩ := bind_ok.mp h
  obtain ⟨hcontracts, rfl⟩ := lift_ok.mp hlift
  obtain ⟨book, hbook, rfl⟩ := takeAll_ok htake
  refine ⟨book, ?_, rfl⟩
  unfold addTicket
  rw [hcontracts]
  exact hbook

theorem makeAck_ok {id : String} {now : Stamp} {v : Verdict} {a : Ack} {w w' : World}
    (h : makeAck id now v w = (.ok a, w')) : a.status = v.1 ∧ w' = w := by
  obtain ⟨_, _, hlift, h⟩ := bind_ok.mp h
  obtain ⟨-, rfl⟩ := lift_ok.mp hlift
  obtain ⟨rfl, rfl⟩ := pure_ok.mp h
  exact ⟨rfl, rfl⟩

theorem ack_ok {t : Ticket} {status : AckStatus} {message : String} {a : Ack} {w w' : World}
    (h : ack H t status message w = (.ok a, w')) : a.status = status ∧ w'.broker = w.broker := by
  obtain ⟨now, _, hask, h⟩ := bind_ok.mp h
  obtain ⟨-, rfl⟩ := ask_ok.mp hask
  obtain ⟨hstatus, rfl⟩ := makeAck_ok h
  exact ⟨hstatus, rfl⟩

/-! ## Drain -/

/-- What a drain may change: the sent tickets grow by tickets it took, and the expected book loses
the entries. -/
structure Drained (A : Arith) (tickets : List Ticket) (entries : List Entry) (b b' : Broker) : Prop where
  queue : b'.queue = b.queue
  keys : b'.keys = b.keys
  restored : b'.restored = b.restored
  cancelled : b'.cancelled = b.cancelled
  sent : ∀ key s, b'.sent.get key = some s → b.sent.get key = some s ∨
    (s.ticket.venueOrderId = key ∧ key ∈ tickets.map (·.venueOrderId))
  expected : replay A b.expected entries = .ok b'.expected

namespace Drained

variable {ts ts' : List Ticket} {l l' : List Entry} {b b' b'' : Broker}

theorem refl : Drained A ts [] b b := ⟨rfl, rfl, rfl, rfl, fun _ _ h => Or.inl h, rfl⟩

theorem trans (h : Drained A ts l b b') (h' : Drained A ts' l' b' b'') :
    Drained A (ts ++ ts') (l ++ l') b b'' where
  queue := h'.queue.trans h.queue
  keys := h'.keys.trans h.keys
  restored := h'.restored.trans h.restored
  cancelled := h'.cancelled.trans h.cancelled
  sent key s hs := by
    rw [List.map_append, List.mem_append]
    rcases h'.sent key s hs with hs | ⟨hkey, hmem⟩
    · rcases h.sent key s hs with hs | ⟨hkey, hmem⟩
      · exact Or.inl hs
      · exact Or.inr ⟨hkey, Or.inl hmem⟩
    · exact Or.inr ⟨hkey, Or.inr hmem⟩
  expected := by
    rw [replay_append, h.expected]
    exact h'.expected

theorem reject {t : Ticket} {book : Book} (h : addTicket A b.expected t (-1) none = .ok book) :
    Drained A ts [.rejected t] b { b with expected := book } :=
  ⟨rfl, rfl, rfl, rfl, fun _ _ hs => Or.inl hs, by rw [replay_singleton]; exact h⟩

end Drained

theorem prove_ok {t : Ticket} {raw : PlaceRaw} {u : Unit} {w w' : World}
    (h : prove t raw w = (.ok u, w')) : Drained A [t] [] w.broker w'.broker := by
  unfold prove at h
  rcases hid : placedOrderId raw with _ | ⟨orderId, state⟩
  all_goals simp only [hid] at h
  · obtain ⟨-, rfl⟩ := pure_ok.mp h
    exact .refl
  · rw [modify_ok] at h
    subst h
    refine ⟨rfl, rfl, rfl, rfl, fun key s hs => ?_, rfl⟩
    simp only [OMap.get_put] at hs
    split at hs
    · cases hs
      exact Or.inr ⟨‹key = _›.symm, by simp [‹key = _›]⟩
    · exact Or.inl hs

theorem send_ok {t : Ticket} {a : Ack} {w w' : World} (h : send H t w = (.ok a, w')) :
    Drained A [t] [] w.broker w'.broker := by
  unfold send at h
  rcases hspec : ticketFor t with e | spec
  all_goals simp only [hspec] at h
  · split at h
    · rw [(ack_ok h).2]
      exact .refl
    · simp at h
  · obtain ⟨answer, m, hplace, h⟩ := bind_ok.mp h
    have hm : m.broker = w.broker := by
      obtain ⟨_, _, hnote, hask⟩ := bind_ok.mp hplace
      cases hnote
      obtain ⟨-, rfl⟩ := attempt_ok.mp hask
      rfl
    rcases answer with (r | e | e | e) | raw
    · obtain ⟨_, _, hask, h⟩ := bind_ok.mp h
      obtain ⟨-, rfl⟩ := ask_ok.mp hask
      rw [(makeAck_ok h).2, hm]
      exact .refl
    · simp at h
    · simp at h
    · simp at h
    · obtain ⟨_, m', hprove, h⟩ := bind_ok.mp h
      obtain ⟨_, _, hask, h⟩ := bind_ok.mp h
      obtain ⟨-, rfl⟩ := ask_ok.mp hask
      have hproved : Drained A [t] [] m.broker m'.broker := prove_ok hprove
      rw [(makeAck_ok h).2, ← hm]
      exact hproved

def rejection (t : Ticket) (a : Ack) : List Entry := if a.status = .rejected then [.rejected t] else []

theorem rejections_cons {t : Ticket} {ts : List Ticket} {a : Ack} {acks : List Ack} :
    rejections (t :: ts) (a :: acks) = rejection t a ++ rejections ts acks := by
  unfold rejections rejection
  by_cases h : a.status = .rejected <;> simp [h]

theorem unexpect_drained {ts : List Ticket} {t : Ticket} {a : Ack} {u : Unit} {w w' : World}
    (ha : a.status = .rejected) (h : unexpect A t none w = (.ok u, w')) :
    Drained A ts (rejection t a) w.broker w'.broker := by
  obtain ⟨book, hbook, rfl⟩ := unexpect_ok h
  rw [rejection, if_pos ha]
  exact .reject hbook

theorem readBack_ok {t : Ticket} {sent a : Ack} {before book : Book} {claimed claimed' : List Nat}
    {w w' : World} (h : readBack A H t sent before claimed w = (.ok (a, book, claimed'), w')) :
    Drained A [] (rejection t a) w.broker w'.broker := by
  obtain ⟨read, m, hread, h⟩ := bind_ok.mp h
  have hm : m.broker = w.broker := Still.broker_ok still_readBoth.attempt hread
  rw [← hm]
  rcases read with f | ⟨positions, working⟩
  · dsimp only at h
    split at h
    · simp at h
    · obtain ⟨_, _, hack, h⟩ := bind_ok.mp h
      obtain ⟨hstatus, hbroker⟩ := ack_ok hack
      obtain ⟨heq, rfl⟩ := pure_ok.mp h
      cases heq
      rw [hbroker, rejection, if_neg (by rw [hstatus]; decide)]
      exact .refl
  · obtain ⟨⟨⟨status, reason⟩, claimed''⟩, _, hconfirm, h⟩ := bind_ok.mp h
    obtain ⟨-, rfl⟩ := lift_ok.mp hconfirm
    obtain ⟨_, m', hun, h⟩ := bind_ok.mp h
    obtain ⟨a', _, hack, h⟩ := bind_ok.mp h
    obtain ⟨hstatus, hbroker⟩ := ack_ok hack
    obtain ⟨_, _, hbook, h⟩ := bind_ok.mp h
    obtain ⟨-, rfl⟩ := lift_ok.mp hbook
    obtain ⟨heq, rfl⟩ := pure_ok.mp h
    cases heq
    rw [hbroker]
    unfold unexpectIf at hun
    split at hun
    · exact unexpect_drained (hstatus.trans (by simpa using ‹decide _ = true›)) hun
    · obtain ⟨-, rfl⟩ := pure_ok.mp hun
      rw [rejection, if_neg (by rw [hstatus]; simpa using ‹¬ decide _ = true›)]
      exact .refl

theorem drainTicket_ok {t : Ticket} {a : Ack} {before book : Book} {claimed claimed' : List Nat}
    {w w' : World} (h : drainTicket A H t before claimed w = (.ok (a, book, claimed'), w')) :
    Drained A [t] (rejection t a) w.broker w'.broker := by
  obtain ⟨_, _, hget, h⟩ := bind_ok.mp h
  obtain ⟨rfl, rfl⟩ := getBroker_ok.mp hget
  split at h
  · obtain ⟨_, m, hack, h⟩ := bind_ok.mp h
    obtain ⟨_, _, hun, h⟩ := bind_ok.mp h
    obtain ⟨heq, rfl⟩ := pure_ok.mp h
    cases heq
    obtain ⟨hstatus, hbroker⟩ := ack_ok hack
    rw [← hbroker]
    exact unexpect_drained hstatus hun
  · obtain ⟨sent, m, hsend, h⟩ := bind_ok.mp h
    have hsent : Drained A [t] [] w.broker m.broker := send_ok hsend
    split at h
    · obtain ⟨_, _, hun, h⟩ := bind_ok.mp h
      obtain ⟨heq, rfl⟩ := pure_ok.mp h
      cases heq
      have hun : Drained A [] (rejection t a) m.broker _ := unexpect_drained ‹_› hun
      simpa using hsent.trans hun
    · simpa using hsent.trans (readBack_ok h)

theorem drainTickets_ok {ts : List Ticket} {before : Book} {claimed : List Nat} {acks acks' : List Ack}
    {w w' : World} (h : drainTickets A H ts before claimed acks w = (.ok acks', w')) :
    ∃ later, acks' = acks ++ later ∧ Drained A ts (rejections ts later) w.broker w'.broker := by
  induction ts generalizing before claimed acks w with
  | nil =>
      obtain ⟨rfl, rfl⟩ := pure_ok.mp h
      exact ⟨[], by simp, .refl⟩
  | cons t rest ih =>
      obtain ⟨⟨a, book, claimed'⟩, m, hticket, h⟩ := bind_ok.mp h
      obtain ⟨later, rfl, hrest⟩ := ih h
      refine ⟨a :: later, by simp, ?_⟩
      rw [rejections_cons]
      exact (drainTicket_ok hticket).trans hrest

theorem rejectAll_ok {why : String} {ts : List Ticket} {acks acks' : List Ack} {w w' : World}
    (h : rejectAll A H why ts acks w = (.ok acks', w')) :
    ∃ later, acks' = acks ++ later ∧ Drained A ts (rejections ts later) w.broker w'.broker := by
  induction ts generalizing acks w with
  | nil =>
      obtain ⟨rfl, rfl⟩ := pure_ok.mp h
      exact ⟨[], by simp, .refl⟩
  | cons t rest ih =>
      obtain ⟨a, m, hack, h⟩ := bind_ok.mp h
      obtain ⟨_, m', hun, h⟩ := bind_ok.mp h
      obtain ⟨later, rfl, hrest⟩ := ih h
      obtain ⟨hstatus, hbroker⟩ := ack_ok hack
      have hhead : Drained A [t] (rejection t a) m.broker m'.broker := unexpect_drained hstatus hun
      rw [hbroker] at hhead
      refine ⟨a :: later, by simp, ?_⟩
      rw [rejections_cons]
      exact hhead.trans hrest

theorem reconcileNow_ok {deferUnavailable : Bool} {event : VenueReconcile} {w w' : World}
    (h : reconcileNow A H deferUnavailable w = (.ok event, w')) :
    ∃ halted, w'.broker = { w.broker with halted := halted } := by
  obtain ⟨_, _, hask, h⟩ := bind_ok.mp h
  obtain ⟨-, rfl⟩ := ask_ok.mp hask
  obtain ⟨_, _, hget, h⟩ := bind_ok.mp h
  obtain ⟨rfl, rfl⟩ := getBroker_ok.mp hget
  obtain ⟨read, m, hread, h⟩ := bind_ok.mp h
  have hm := Still.broker_ok still_readBoth.attempt hread
  change m.broker = w.broker at hm
  obtain ⟨_, m', hevent, h⟩ := bind_ok.mp h
  have hm' : m'.broker = m.broker := by
    rcases read with f | ⟨positions, working⟩
    · dsimp only at hevent
      split at hevent
      · simp at hevent
      · rw [(lift_ok.mp hevent).2]
    · rw [(lift_ok.mp hevent).2]
  obtain ⟨_, _, hhalt, h⟩ := bind_ok.mp h
  obtain ⟨-, rfl⟩ := pure_ok.mp h
  rw [haltIf_ok] at hhalt
  subst hhalt
  rw [hm', hm]
  exact ⟨_, rfl⟩

theorem finish_ok {acks : List Ack} {contracts : List Contract} {failed : Option String}
    {report : DrainReport} {w w' : World} (h : finish A H acks contracts failed w = (.ok report, w')) :
    ∃ halted, w'.broker = { w.broker with halted := halted } := by
  obtain ⟨_, _, hask, h⟩ := bind_ok.mp h
  obtain ⟨-, rfl⟩ := ask_ok.mp hask
  obtain ⟨_, _, hget, h⟩ := bind_ok.mp h
  obtain ⟨rfl, rfl⟩ := getBroker_ok.mp hget
  obtain ⟨_, m, hevent, h⟩ := bind_ok.mp h
  have hm : ∃ halted, m.broker = { w.broker with halted := halted } := by
    cases failed with
    | none =>
        obtain ⟨halted, hm⟩ := reconcileNow_ok hevent
        exact ⟨halted, hm⟩
    | some why =>
        rw [← (lift_ok.mp hevent).2]
        exact ⟨_, rfl⟩
  obtain ⟨_, _, hhalt, h⟩ := bind_ok.mp h
  obtain ⟨_, _, hget, h⟩ := bind_ok.mp h
  obtain ⟨-, rfl⟩ := getBroker_ok.mp hget
  obtain ⟨-, rfl⟩ := pure_ok.mp h
  rw [haltIf_ok] at hhalt
  subst hhalt
  obtain ⟨halted, hm⟩ := hm
  rw [hm]
  exact ⟨_, rfl⟩

theorem Drained.halt {ts : List Ticket} {l : List Entry} {b b' b'' : Broker} (h : Drained A ts l b b')
    (hb : ∃ halted, b'' = { b' with halted := halted }) : Drained A ts l b b'' := by
  obtain ⟨halted, rfl⟩ := hb
  exact ⟨h.queue, h.keys, h.restored, h.cancelled, h.sent, h.expected⟩

theorem drainQueue_ok {ts : List Ticket} {taken : Option (Stamp × Book)} {report : DrainReport}
    {w w' : World} (h : drainQueue A H ts taken w = (.ok report, w')) :
    Drained A ts (rejections ts report.acks) w.broker w'.broker := by
  obtain ⟨books, _, hbooks, h⟩ := bind_ok.mp h
  obtain ⟨-, rfl⟩ := lift_ok.mp hbooks
  obtain ⟨start, m, hstart, h⟩ := bind_ok.mp h
  rw [← Still.broker_ok still_startBook hstart]
  cases start with
  | error f =>
      dsimp only at h
      split at h
      · simp at h
      · obtain ⟨acks, m', hacks, h⟩ := bind_ok.mp h
        obtain ⟨later, rfl, hdrained⟩ := rejectAll_ok hacks
        rw [finish_acks h]
        exact hdrained.halt (finish_ok h)
  | ok before =>
      obtain ⟨acks, m', hacks, h⟩ := bind_ok.mp h
      obtain ⟨later, rfl, hdrained⟩ := drainTickets_ok hacks
      rw [finish_acks h]
      exact hdrained.halt (finish_ok h)

theorem requireConnected_ok {what : String} {u : Unit} {w w' : World}
    (h : requireConnected what w = (.ok u, w')) : w' = w := by
  obtain ⟨_, _, hget, h⟩ := bind_ok.mp h
  obtain ⟨-, rfl⟩ := getBroker_ok.mp hget
  exact (lift_ok.mp h).2.symm

/-- A drain that returned emptied the queue and took out what it acknowledged REJECTED. -/
theorem drain_ok {report : DrainReport} {w w' : World} (h : drain A H w = (.ok report, w')) :
    Drained A w.broker.queue (rejections w.broker.queue report.acks) { w.broker with queue := [] }
      w'.broker := by
  obtain ⟨_, _, hconn, h⟩ := bind_ok.mp h
  cases requireConnected_ok hconn
  obtain ⟨_, _, hget, h⟩ := bind_ok.mp h
  obtain ⟨rfl, rfl⟩ := getBroker_ok.mp hget
  obtain ⟨_, _, hmodify, h⟩ := bind_ok.mp h
  rw [modify_ok] at hmodify
  subst hmodify
  split at h
  · rename_i hq
    obtain ⟨rfl, rfl⟩ := pure_ok.mp h
    rw [hq]
    exact ⟨rfl, rfl, rfl, rfl, fun _ _ hs => Or.inl hs, rfl⟩
  · obtain ⟨_, _, hmodify, h⟩ := bind_ok.mp h
    rw [modify_ok] at hmodify
    subst hmodify
    have hdrained := drainQueue_ok h
    exact ⟨hdrained.queue, hdrained.keys, hdrained.restored, hdrained.cancelled, hdrained.sent,
      hdrained.expected⟩

/-! ## Cancel -/

/-- What a cancel that returned did: it dropped a queued ticket, or took out what rested of a sent
one after the venue said CANCELED, or nothing. -/
inductive Cancelled (A : Arith) (H : Host) (key : String) (w : World) (a : Ack) : Broker → Prop
  | nothing (none : cancellation w.broker key a = []) : Cancelled A H key w a w.broker
  | dropped (t : Ticket) (book : Book) (hkey : key ∉ w.broker.cancelled)
      (found : w.broker.queue.find? (·.venueOrderId = key) = some t)
      (taken : addTicket A w.broker.expected t (-1) none = .ok book) :
      Cancelled A H key w a { w.broker with
        queue := w.broker.queue.eraseP (·.venueOrderId = key)
        expected := book
        cancelled := w.broker.cancelled ++ [key] }
  | confirmed (s : Sent) (book : Book) (raw : CancelRaw) (hkey : key ∉ w.broker.cancelled)
      (absent : w.broker.queue.find? (·.venueOrderId = key) = none)
      (found : w.broker.sent.get key = some s)
      (answer : H.cancelOrder (w.tick + 2) s.orderId = .ok raw)
      (status : a.status = (cancelResult raw).1) (accepted : a.status = .accepted)
      (taken : addTicket A w.broker.expected s.ticket (-1) (some s.resting) = .ok book) :
      Cancelled A H key w a { w.broker with
        sent := w.broker.sent.remove key
        expected := book
        cancelled := w.broker.cancelled ++ [key] }

theorem cancelAtVenue_ok {key : String} {now : Stamp} {s : Sent} {a : Ack} {w w' : World}
    (h : cancelAtVenue A H key now s w = (.ok a, w')) :
    (a.status ≠ .accepted ∧ w'.broker = w.broker) ∨
    ∃ raw book, H.cancelOrder (w.tick + 1) s.orderId = .ok raw ∧ a.status = (cancelResult raw).1 ∧
      a.status = .accepted ∧
      addTicket A w.broker.expected s.ticket (-1) (some s.resting) = .ok book ∧
      w'.broker = { w.broker with
        sent := w.broker.sent.remove key
        expected := book
        cancelled := w.broker.cancelled ++ [key] } := by
  obtain ⟨able, _, hask, h⟩ := bind_ok.mp h
  obtain ⟨-, rfl⟩ := ask_ok.mp hask
  split at h
  · obtain ⟨hstatus, rfl⟩ := makeAck_ok h
    exact Or.inl ⟨by rw [hstatus]; decide, rfl⟩
  · obtain ⟨answer, _, hcall, h⟩ := bind_ok.mp h
    obtain ⟨hanswer, rfl⟩ := attempt_ok.mp hcall
    change H.cancelOrder (w.tick + 1) s.orderId = answer at hanswer
    rcases answer with (r | e | e | e) | raw
    · obtain ⟨_, _, hask, h⟩ := bind_ok.mp h
      obtain ⟨-, rfl⟩ := ask_ok.mp hask
      obtain ⟨hstatus, rfl⟩ := makeAck_ok h
      refine Or.inl ⟨?_, rfl⟩
      rw [hstatus]
      unfold cancelException
      split <;> simp
    · simp at h
    · simp at h
    · simp at h
    · obtain ⟨_, _, hask, h⟩ := bind_ok.mp h
      obtain ⟨-, rfl⟩ := ask_ok.mp hask
      obtain ⟨a', _, hack, h⟩ := bind_ok.mp h
      obtain ⟨hstatus, rfl⟩ := makeAck_ok hack
      split at h
      · rename_i haccepted
        obtain ⟨_, _, hsettle, h⟩ := bind_ok.mp h
        obtain ⟨rfl, rfl⟩ := pure_ok.mp h
        obtain ⟨_, _, hmodify, hsettle⟩ := bind_ok.mp hsettle
        rw [modify_ok] at hmodify
        subst hmodify
        obtain ⟨_, _, hun, hsettle⟩ := bind_ok.mp hsettle
        obtain ⟨book, hbook, rfl⟩ := unexpect_ok hun
        rw [modify_ok] at hsettle
        subst hsettle
        exact Or.inr ⟨raw, book, hanswer, hstatus, haccepted, hbook, rfl⟩
      · rename_i hrejected
        obtain ⟨rfl, rfl⟩ := pure_ok.mp h
        exact Or.inl ⟨hrejected, rfl⟩

theorem cancel_ok {key : String} {a : Ack} {w w' : World} (h : cancel A H key w = (.ok a, w')) :
    Cancelled A H key w a w'.broker := by
  obtain ⟨_, _, hconn, h⟩ := bind_ok.mp h
  cases requireConnected_ok hconn
  obtain ⟨now, _, hask, h⟩ := bind_ok.mp h
  obtain ⟨-, rfl⟩ := ask_ok.mp hask
  obtain ⟨_, _, hget, h⟩ := bind_ok.mp h
  obtain ⟨rfl, rfl⟩ := getBroker_ok.mp hget
  split at h
  · rename_i hkey
    rw [(makeAck_ok h).2]
    exact .nothing (by simp [cancellation, hkey])
  rename_i hkey
  rcases hfind : w.broker.queue.find? (·.venueOrderId = key) with _ | t
  all_goals simp only [hfind] at h
  · rcases hsent : w.broker.sent.get key with _ | s
    all_goals simp only [hsent] at h
    · rw [(makeAck_ok h).2]
      exact .nothing (by simp [cancellation, hkey, hfind, hsent])
    · rcases cancelAtVenue_ok h with ⟨hrejected, hb⟩ | ⟨raw, book, hraw, hstatus, haccepted, hbook, hb⟩
      · rw [hb]
        exact .nothing (by simp [cancellation, hkey, hfind, hsent, hrejected])
      · rw [hb]
        exact .confirmed s book raw hkey hfind hsent hraw hstatus haccepted hbook
  · obtain ⟨_, _, hmodify, h⟩ := bind_ok.mp h
    rw [modify_ok] at hmodify
    subst hmodify
    obtain ⟨_, _, hun, h⟩ := bind_ok.mp h
    obtain ⟨book, hbook, rfl⟩ := unexpect_ok hun
    obtain ⟨_, _, hmodify, h⟩ := bind_ok.mp h
    rw [modify_ok] at hmodify
    subst hmodify
    rw [(makeAck_ok h).2]
    exact .dropped t book hkey hfind hbook

/-! ## Mirror -/

theorem enqueue_ok {expected book : Book} {t : Ticket} {w w' : World}
    (h : enqueue A expected t w = (.ok book, w')) : ∃ new : List Ticket,
      w'.broker = { w.broker with
        keys := w.broker.keys ++ new.map (·.venueOrderId), queue := w.broker.queue ++ new } ∧
      replay A expected (new.map .queued) = .ok book := by
  obtain ⟨_, _, hget, h⟩ := bind_ok.mp h
  obtain ⟨rfl, rfl⟩ := getBroker_ok.mp hget
  split at h
  · obtain ⟨rfl, rfl⟩ := pure_ok.mp h
    exact ⟨[], by simp, rfl⟩
  · obtain ⟨_, _, hmodify, h⟩ := bind_ok.mp h
    rw [modify_ok] at hmodify
    subst hmodify
    obtain ⟨hbook, rfl⟩ := lift_ok.mp h
    refine ⟨[t], rfl, ?_⟩
    rw [List.map_singleton, replay_singleton]
    exact hbook

theorem enqueueAll_ok {tickets : List Ticket} {expected book : Book} {w w' : World}
    (h : enqueueAll A tickets expected w = (.ok book, w')) : ∃ new : List Ticket,
      w'.broker = { w.broker with
        keys := w.broker.keys ++ new.map (·.venueOrderId), queue := w.broker.queue ++ new } ∧
      replay A expected (new.map .queued) = .ok book := by
  induction tickets generalizing expected w with
  | nil =>
      obtain ⟨rfl, rfl⟩ := pure_ok.mp h
      exact ⟨[], by simp, rfl⟩
  | cons t rest ih =>
      obtain ⟨mid, m, hhead, htail⟩ := bind_ok.mp h
      obtain ⟨first, hm, hfirst⟩ := enqueue_ok hhead
      obtain ⟨others, hw', hothers⟩ := ih htail
      refine ⟨first ++ others, ?_, ?_⟩
      · rw [hw', hm]
        simp
      · rw [List.map_append, replay_append, hfirst]
        exact hothers

/-- A batch that returned queued its new tickets and put their contracts into the book. -/
theorem mirrorBatch_ok {orders : List NOrder} {holdings : OMap (String × Contract) Money}
    {batch : Batch} {w w' : World} (hrestored : w.broker.restored = true)
    (h : mirrorBatch A sha256 H orders holdings w = (.ok batch, w')) :
    ∃ (new : List Ticket) (book : Book),
      w'.broker = { w.broker with
        keys := w.broker.keys ++ new.map (·.venueOrderId), queue := w.broker.queue ++ new,
        expected := book } ∧
      replay A w.broker.expected (new.map .queued) = .ok book := by
  obtain ⟨_, _, hconn, h⟩ := bind_ok.mp h
  cases requireConnected_ok hconn
  obtain ⟨_, _, hget, h⟩ := bind_ok.mp h
  obtain ⟨rfl, rfl⟩ := getBroker_ok.mp hget
  split at h
  · obtain ⟨-, rfl⟩ := pure_ok.mp h
    exact ⟨[], w.broker.expected, by simp, rfl⟩
  · obtain ⟨_, _, hask, h⟩ := bind_ok.mp h
    obtain ⟨-, rfl⟩ := ask_ok.mp hask
    obtain ⟨_, _, hnet, h⟩ := bind_ok.mp h
    obtain ⟨-, rfl⟩ := lift_ok.mp hnet
    obtain ⟨base, _, hbase, h⟩ := bind_ok.mp h
    obtain ⟨hexpected, rfl⟩ := lift_ok.mp hbase
    cases hexpected
    obtain ⟨book, m, hqueue, h⟩ := bind_ok.mp h
    obtain ⟨_, _, hmodify, h⟩ := bind_ok.mp h
    rw [modify_ok] at hmodify
    subst hmodify
    obtain ⟨-, rfl⟩ := pure_ok.mp h
    obtain ⟨new, hm, hreplay⟩ := enqueueAll_ok hqueue
    exact ⟨new, book, by rw [hm], hreplay⟩

/-! ## Runs of the trading calls -/

/-- The keys whose contracts left the book, in order. -/
def gone (journal : List Entry) : List String := (journal.filter Entry.leaves).map Entry.key

def refusedKeys (journal : List Entry) : List String :=
  (journal.filter Entry.isRejected).map Entry.key

/-- Batches, drains and cancels that return, with what they put into the book and took out of it.
`allowed` says which cancels the run makes, knowing the journal so far. -/
inductive Run (A : Arith) (sha256 : String → String) (H : Host)
    (allowed : List Entry → World → String → Prop) (w : World) : List Entry → World → Prop
  | start : Run A sha256 H allowed w [] w
  | mirrorBatch {journal : List Entry} {m w' : World} {orders : List NOrder}
      {holdings : OMap (String × Contract) Money} {batch : Batch}
      (before : Run A sha256 H allowed w journal m)
      (call : mirrorBatch A sha256 H orders holdings m = (.ok batch, w')) :
      Run A sha256 H allowed w
        (journal ++ (w'.broker.queue.drop m.broker.queue.length).map .queued) w'
  | drain {journal : List Entry} {m w' : World} {report : DrainReport}
      (before : Run A sha256 H allowed w journal m) (call : drain A H m = (.ok report, w')) :
      Run A sha256 H allowed w (journal ++ rejections m.broker.queue report.acks) w'
  | cancel {journal : List Entry} {m w' : World} {key : String} {ack : Ack}
      (before : Run A sha256 H allowed w journal m) (may : allowed journal m key)
      (call : cancel A H key m = (.ok ack, w')) :
      Run A sha256 H allowed w (journal ++ cancellation m.broker key ack) w'

/-- The venue answers the cancel of this ticket with CANCELED. -/
def Confirms (H : Host) (w : World) (s : Sent) : Prop :=
  ∃ raw, H.cancelOrder (w.tick + 2) s.orderId = .ok raw ∧ (cancelResult raw).1 = .accepted

/-- No ticket a drain already acknowledged REJECTED is cancelled at the venue. -/
def Careful (H : Host) (journal : List Entry) (w : World) (key : String) : Prop :=
  key ∈ refusedKeys journal → ∀ s, w.broker.sent.get key = some s → ¬ Confirms H w s

theorem gone_append {l l' : List Entry} : gone (l ++ l') = gone l ++ gone l' := by simp [gone]

theorem refusedKeys_append {l l' : List Entry} :
    refusedKeys (l ++ l') = refusedKeys l ++ refusedKeys l' := by simp [refusedKeys]

theorem gone_queued {ts : List Ticket} : gone (ts.map .queued) = [] := by
  simp [gone, Entry.leaves]

theorem gone_rejections {queue : List Ticket} {acks : List Ack} :
    (gone (rejections queue acks)).Sublist (queue.map (·.venueOrderId)) ∧
      gone (rejections queue acks) = refusedKeys (rejections queue acks) := by
  induction queue generalizing acks with
  | nil => simp [rejections, gone, refusedKeys]
  | cons t rest ih =>
      cases acks with
      | nil => simp [rejections, gone, refusedKeys]
      | cons a acks =>
          have hsub : (gone (rejections rest acks)).Sublist _ := ih.1
          have heq : gone (rejections rest acks) = refusedKeys (rejections rest acks) := ih.2
          rw [rejections_cons, gone_append, refusedKeys_append, ← heq, rejection, List.map_cons]
          split
          · exact ⟨hsub.cons_cons t.venueOrderId, rfl⟩
          · exact ⟨hsub.cons t.venueOrderId, rfl⟩

/-- The broker against the journal since its restore. -/
structure Booked (A : Arith) (base : Book) (journal : List Entry) (w : World) : Prop where
  desk : w.desk.Ok
  restored : w.broker.restored = true
  expected : replay A base journal = .ok w.broker.expected
  once : (gone journal).Nodup
  shut : ∀ key ∈ gone journal, w.desk.Shut key
  sent : ∀ key s, w.broker.sent.get key = some s →
    s.ticket.venueOrderId = key ∧ w.desk.Shut key
  settled : ∀ key ∈ gone journal, key ∈ w.broker.cancelled ∨ key ∈ refusedKeys journal

variable {base : Book} {journal : List Entry} {w w' : World}

theorem Booked.mirrorBatch (h : Booked A base journal w) {orders : List NOrder}
    {holdings : OMap (String × Contract) Money} {batch : Batch}
    (call : mirrorBatch A sha256 H orders holdings w = (.ok batch, w')) :
    Booked A base (journal ++ (w'.broker.queue.drop w.broker.queue.length).map .queued) w' := by
  have hpath : ReflTransGen Move w.desk (Tos.mirrorBatch A sha256 H orders holdings w).2.desk :=
    mirrorBatch_moves w
  rw [call] at hpath
  obtain ⟨new, book, hb, hbook⟩ := mirrorBatch_ok h.restored call
  have hnew : w'.broker.queue.drop w.broker.queue.length = new := by simp [hb]
  rw [hnew]
  constructor
  case desk => exact ok_move.path hpath h.desk
  case restored =>
    rw [hb]
    exact h.restored
  case expected =>
    rw [replay_append, h.expected, hb]
    exact hbook
  case once =>
    rw [gone_append, gone_queued, List.append_nil]
    exact h.once
  case shut =>
    intro key hkey
    rw [gone_append, gone_queued, List.append_nil] at hkey
    exact shut_move.path hpath (h.shut key hkey)
  case sent =>
    intro key s hs
    rw [hb] at hs
    obtain ⟨hkey, hshut⟩ := h.sent key s hs
    exact ⟨hkey, shut_move.path hpath hshut⟩
  case settled =>
    intro key hkey
    rw [gone_append, gone_queued, List.append_nil] at hkey
    rw [hb, refusedKeys_append, List.mem_append]
    exact (h.settled key hkey).imp_right Or.inl

theorem Booked.drain (h : Booked A base journal w) {report : DrainReport}
    (call : drain A H w = (.ok report, w')) :
    Booked A base (journal ++ rejections w.broker.queue report.acks) w' := by
  have hpath : ReflTransGen Move w.desk w'.desk := ((drain_spec w).ok call).1
  have hdrained := drain_ok call
  have hsub : (gone (rejections w.broker.queue report.acks)).Sublist _ := gone_rejections.1
  have hrefused : gone (rejections w.broker.queue report.acks) = refusedKeys _ := gone_rejections.2
  have hqueue : ∀ key ∈ w.broker.queue.map (·.venueOrderId), w'.desk.Shut key := by
    intro key hkey
    refine ⟨known_move.path hpath (h.desk.known key hkey), ?_⟩
    change key ∉ w'.broker.queue.map (·.venueOrderId)
    rw [hdrained.queue]
    simp
  constructor
  case desk => exact ok_move.path hpath h.desk
  case restored => exact hdrained.restored.trans h.restored
  case expected =>
    rw [replay_append, h.expected]
    exact hdrained.expected
  case once =>
    rw [gone_append]
    refine h.once.append (h.desk.queued.sublist hsub) fun key hkey hnew => ?_
    exact (h.shut key hkey).2 (hsub.subset hnew)
  case shut =>
    intro key hkey
    rw [gone_append, List.mem_append] at hkey
    rcases hkey with hkey | hkey
    · exact shut_move.path hpath (h.shut key hkey)
    · exact hqueue key (hsub.subset hkey)
  case sent =>
    intro key s hs
    rcases hdrained.sent key s hs with hs | ⟨hkey, hmem⟩
    · obtain ⟨hkey, hshut⟩ := h.sent key s hs
      exact ⟨hkey, shut_move.path hpath hshut⟩
    · exact ⟨hkey, hqueue key hmem⟩
  case settled =>
    intro key hkey
    rw [gone_append, List.mem_append] at hkey
    rw [hdrained.cancelled, refusedKeys_append, List.mem_append, ← hrefused]
    rcases hkey with hkey | hkey
    · exact (h.settled key hkey).imp_right Or.inl
    · exact Or.inr (Or.inr hkey)

theorem notMem_eraseP {queue : List Ticket} {key : String}
    (h : (queue.map (·.venueOrderId)).Nodup) :
    key ∉ (queue.eraseP (·.venueOrderId = key)).map (·.venueOrderId) := by
  induction queue with
  | nil => simp
  | cons t rest ih =>
      rw [List.map_cons, List.nodup_cons] at h
      by_cases ht : t.venueOrderId = key
      · rw [List.eraseP_cons_of_pos (by simpa using ht), ← ht]
        exact h.1
      · rw [List.eraseP_cons_of_neg (by simpa using ht), List.map_cons, List.mem_cons]
        rintro (heq | hmem)
        · exact ht heq.symm
        · exact ih h.2 hmem

theorem Booked.cancel (h : Booked A base journal w) {key : String} {ack : Ack}
    (careful : Careful H journal w key) (call : cancel A H key w = (.ok ack, w')) :
    Booked A base (journal ++ cancellation w.broker key ack) w' := by
  have hpath : ReflTransGen Move w.desk (Tos.cancel A H key w).2.desk := cancel_moves w
  rw [call] at hpath
  have hok := ok_move.path hpath h.desk
  have hc := cancel_ok call
  generalize hb : w'.broker = b at hc
  cases hc with
  | nothing none =>
      rw [none, List.append_nil]
      refine ⟨hok, hb ▸ h.restored, hb ▸ h.expected, h.once, fun k hk => shut_move.path hpath (h.shut k hk),
        fun k s hs => ?_, hb ▸ h.settled⟩
      rw [hb] at hs
      exact ⟨(h.sent k s hs).1, shut_move.path hpath (h.sent k s hs).2⟩
  | dropped t book hkey found taken =>
      have htkey : t.venueOrderId = key := by simpa using List.find?_some found
      have hmem : key ∈ w.broker.queue.map (·.venueOrderId) :=
        List.mem_map.mpr ⟨t, List.mem_of_find?_eq_some found, htkey⟩
      have hentries : cancellation w.broker key ack = [.dropped t] := by simp [cancellation, hkey, found]
      have hgone : gone (journal ++ [.dropped t]) = gone journal ++ [key] := by
        rw [gone_append, ← htkey]
        rfl
      rw [hentries]
      constructor
      case desk => exact hok
      case restored =>
        rw [hb]
        exact h.restored
      case expected =>
        rw [replay_append, h.expected, hb]
        exact (replay_singleton).trans taken
      case once =>
        rw [hgone]
        refine h.once.append (List.nodup_singleton key) ?_
        rw [List.disjoint_singleton]
        exact fun hin => (h.shut key hin).2 hmem
      case shut =>
        intro k hk
        rw [hgone, List.mem_append, List.mem_singleton] at hk
        rcases hk with hk | rfl
        · exact shut_move.path hpath (h.shut k hk)
        · refine ⟨known_move.path hpath (h.desk.known k hmem), ?_⟩
          change k ∉ w'.broker.queue.map (·.venueOrderId)
          rw [hb]
          exact notMem_eraseP h.desk.queued
      case sent =>
        intro k s hs
        rw [hb] at hs
        exact ⟨(h.sent k s hs).1, shut_move.path hpath (h.sent k s hs).2⟩
      case settled =>
        intro k hk
        rw [hgone, List.mem_append, List.mem_singleton] at hk
        rw [hb, refusedKeys_append]
        rcases hk with hk | rfl
        · exact (h.settled k hk).imp (List.mem_append_left _) (List.mem_append_left _)
        · exact Or.inl (List.mem_append_right _ (List.mem_singleton_self k))
  | confirmed s book raw hkey absent found answer status accepted taken =>
      obtain ⟨hskey, hshut⟩ := h.sent key s found
      have hentries : cancellation w.broker key ack = [.cancelled s] := by
        simp [cancellation, hkey, absent, found, accepted]
      have hgone : gone (journal ++ [.cancelled s]) = gone journal ++ [key] := by
        rw [gone_append, ← hskey]
        rfl
      rw [hentries]
      constructor
      case desk => exact hok
      case restored =>
        rw [hb]
        exact h.restored
      case expected =>
        rw [replay_append, h.expected, hb]
        exact (replay_singleton).trans taken
      case once =>
        rw [hgone]
        refine h.once.append (List.nodup_singleton key) ?_
        rw [List.disjoint_singleton]
        intro hin
        rcases h.settled key hin with hdone | hrefused
        · exact hkey hdone
        · exact careful hrefused s found ⟨raw, answer, status ▸ accepted⟩
      case shut =>
        intro k hk
        rw [hgone, List.mem_append, List.mem_singleton] at hk
        rcases hk with hk | rfl
        · exact shut_move.path hpath (h.shut k hk)
        · exact shut_move.path hpath hshut
      case sent =>
        intro k s' hs
        rw [hb] at hs
        change (w.broker.sent.remove key).get k = some s' at hs
        rw [OMap.get_remove] at hs
        split at hs
        · cases hs
        · exact ⟨(h.sent k s' hs).1, shut_move.path hpath (h.sent k s' hs).2⟩
      case settled =>
        intro k hk
        rw [hgone, List.mem_append, List.mem_singleton] at hk
        rw [hb, refusedKeys_append]
        rcases hk with hk | rfl
        · exact (h.settled k hk).imp (List.mem_append_left _) (List.mem_append_left _)
        · exact Or.inl (List.mem_append_right _ (List.mem_singleton_self k))

theorem run_booked {w₀ : World} (h₀ : Booked A base [] w₀)
    (h : Run A sha256 H (Careful H) w₀ journal w) : Booked A base journal w := by
  induction h with
  | start => exact h₀
  | mirrorBatch _ call ih => exact ih.mirrorBatch call
  | drain _ call ih => exact ih.drain call
  | cancel _ may call ih => exact ih.cancel may call

/-! ## After a restore -/

theorem restoreSent_ok {ts : List MirrorTicketState} {sent sent' : OMap String Sent}
    (h : ts.foldlM (restoreSent A) sent = .ok sent') {key : String} {s : Sent}
    (hs : sent'.get key = some s) : sent.get key = some s ∨
      (s.ticket.venueOrderId = key ∧ ∃ t ∈ ts, t.queued.ticketKey = key) := by
  induction ts generalizing sent with
  | nil =>
      cases h
      exact Or.inl hs
  | cons t ts ih =>
      simp only [List.foldlM_cons, bind_eq_ok] at h
      obtain ⟨m, hm, h⟩ := h
      rcases ih h with hin | ⟨hkey, u, hu, huk⟩
      · unfold restoreSent at hm
        split at hm
        · cases hm
          exact Or.inl hin
        · simp only [bind_eq_ok, pure_eq_ok] at hm
          obtain ⟨ticket, hticket, resting, -, rfl⟩ := hm
          rw [OMap.get_put] at hin
          split at hin
          · cases hin
            simp only [venueOrderOf, bind_eq_ok, pure_eq_ok] at hticket
            obtain ⟨_, -, _, -, _, -, _, -, _, -, _, -, _, -, rfl⟩ := hticket
            exact Or.inr ⟨‹key = _›.symm, t, List.mem_cons_self, ‹key = _›.symm⟩
          · exact Or.inl hin
      · exact Or.inr ⟨hkey, u, List.mem_cons_of_mem _ hu, huk⟩

theorem restore_booked {m : MirrorState} {haltedVenues : List String} (hdesk : w.desk.Ok)
    (hkeyed : TicketKeyed m) (h : restore A m haltedVenues w = (.ok (), w'))
    (hbase : m.expected A = .ok base) : Booked A base [] w' := by
  have hpath : ReflTransGen Move w.desk (restore A m haltedVenues w).2.desk := restore_moves w
  rw [h] at hpath
  obtain ⟨hqueue, sent, expected, hsent, hexpected, hw⟩ := restore_ok h
  rw [hbase] at hexpected
  cases hexpected
  refine ⟨ok_move.path hpath hdesk, by rw [hw], by rw [hw]; rfl, List.nodup_nil, by simp [gone], ?_,
    by simp [gone]⟩
  intro key s hs
  rw [hw] at hs
  rcases restoreSent_ok hsent hs with hnone | ⟨hkey, t, ht, htkey⟩
  · simp at hnone
  · refine ⟨hkey, restore_shut h ?_⟩
    obtain ⟨e, he, rfl⟩ := List.mem_map.mp (List.mem_filter.mp ht).1
    have he := (List.perm_insertionSort _ _).mem_iff.mp he
    obtain ⟨i, hi, rfl⟩ := List.mem_map.mp he
    rw [← htkey, hkeyed.own _ _ (OMap.get_of_mem hi), hkeyed.named i hi]
    exact List.mem_map.mpr ⟨i.2, he, rfl⟩

/-! ## What the entries count for -/

/-- The signed contracts under a key that one unit of a ticket puts on the venue. -/
def Ticket.unitContracts (t : Ticket) (hk : String) : ℚ :=
  match t.instrument with
  | .combo legs => legs.foldl (legUnits hk) 0
  | .single c => if c.hk = hk then t.side.unit else 0

def Entry.contracts (e : Entry) (hk : String) : ℚ :=
  e.sign * (e.ticket.unitContracts hk * (e.units.getD e.ticket.quantity).val)

theorem comboContracts_exact {units : Money} {legs : List ComboLeg} {out out' : Book} {hk : String}
    {v : ℚ} (hkeyed : Keyed out) (hv : onHand hk out = v * units.val)
    (h : legs.foldlM (fun out leg => do
      let v ← signedBy A.exact leg.side (← Ops.mulI A.exact units leg.ratio)
      pure (out.insert leg.contract.hk leg.contract v)) out = .ok out') :
    Keyed out' ∧ onHand hk out' = legs.foldl (legUnits hk) v * units.val := by
  induction legs generalizing out v with
  | nil =>
      cases h
      exact ⟨hkeyed, hv⟩
  | cons leg legs ih =>
      simp only [List.foldlM_cons, bind_eq_ok, pure_eq_ok] at h
      obtain ⟨_, ⟨q, hq, x, hx, rfl⟩, h⟩ := h
      refine ih (hkeyed.insert _ _) ?_ h
      have hxval : x.val = leg.side.unit * (units.val * leg.ratio) := by
        rw [signedBy_exact hx, Ops.exact_mulI hq]
      rw [onHand, OMap.get_insert, legUnits]
      by_cases heq : leg.contract.hk = hk
      · rw [if_pos heq.symm, if_pos heq, Option.getD_some, hxval]
        ring
      · rw [if_neg (Ne.symm heq), if_neg heq]
        exact hv

theorem ticketContracts_exact {t : Ticket} {units : Money} {m : Book}
    (h : ticketContracts A.exact t.instrument t.side units = .ok m) (hk : String) :
    listed hk m.entries = t.unitContracts hk * units.val := by
  unfold ticketContracts at h
  unfold Ticket.unitContracts
  have hzero : onHand hk (.empty : Book) = 0 * units.val := by simp [onHand]
  cases hi : t.instrument with
  | combo legs =>
      rw [hi] at h
      obtain ⟨hkeyed, hget⟩ := comboContracts_exact .empty hzero h
      exact (hkeyed.sum hk).trans hget
  | single c =>
      rw [hi] at h
      simp only [bind_eq_ok, pure_eq_ok] at h
      obtain ⟨v, hv, rfl⟩ := h
      refine ((Keyed.empty.insert c v).sum hk).trans ?_
      rw [OMap.get_insert]
      by_cases heq : c.hk = hk
      · rw [if_pos heq.symm, Option.getD_some, signedBy_exact hv]
        simp [heq]
      · rw [if_neg (Ne.symm heq)]
        simp [heq]

theorem addTicket_exact {book book' : Book} {t : Ticket} {sign : Int} {units : Option Money}
    (h : addTicket A.exact book t sign units = .ok book') (hk : String) :
    onHand hk book' = onHand hk book + sign * (t.unitContracts hk * (units.getD t.quantity).val) := by
  simp only [addTicket, bind_eq_ok] at h
  obtain ⟨contracts, hcontracts, h⟩ := h
  rw [← ticketContracts_exact hcontracts hk]
  clear hcontracts
  generalize contracts.entries = entries at h ⊢
  induction entries generalizing book with
  | nil =>
      cases h
      simp [listed]
  | cons e rest ih =>
      simp only [List.foldlM_cons, bind_eq_ok] at h
      obtain ⟨mid, ⟨q, hq, hmid⟩, h⟩ := h
      simp only [Book.add, bind_eq_ok, pure_eq_ok] at hmid
      obtain ⟨total, htotal, rfl⟩ := hmid
      have htotal : total.val = onHand e.1.hk book + e.2.val * sign := by
        rw [Ops.exact_add htotal, Ops.exact_mulI hq]
        rfl
      rw [ih h, listed_cons, onHand, OMap.get_insert]
      by_cases heq : e.1.hk = hk
      · rw [if_pos heq.symm, if_pos heq, Option.getD_some, htotal, heq]
        ring
      · rw [if_neg (Ne.symm heq), if_neg heq, onHand]
        ring

theorem replay_exact {book book' : Book} (h : replay A.exact book journal = .ok book') (hk : String) :
    onHand hk book' = onHand hk book + (journal.map fun e => e.contracts hk).sum := by
  induction journal generalizing book with
  | nil =>
      cases h
      simp
  | cons e rest ih =>
      simp only [replay, List.foldlM_cons, bind_eq_ok] at h
      obtain ⟨mid, hmid, h⟩ := h
      rw [ih h, addTicket_exact hmid, List.map_cons, List.sum_cons, Entry.contracts, add_assoc]

theorem replay_refuses {B : Arith} (le : A.Le B) (book : Book) :
    Refuses (replay A book journal) (replay B book journal) := by
  have hsigned : ∀ side q, Refuses (signedBy A side q) (signedBy B side q) :=
    fun side q => .ite (fun _ => .refl) fun _ => Ops.neg_refuses le q
  refine .foldlM (fun b e => .bind ?_ fun contracts _ => .foldlM (fun x y => ?_) _ _) _ _
  · unfold ticketContracts
    split
    · refine .foldlM (fun out leg => ?_) _ _
      exact (Ops.mulI_refuses le _ _).bind fun _ _ => (hsigned _ _).bind fun _ _ => .refl
    · exact (hsigned _ _).bind fun _ _ => .refl
  · refine (Ops.mulI_refuses le _ _).bind fun _ _ => ?_
    exact (Ops.add_refuses le _ _).bind fun _ _ => .refl

end TradeEngine.Tos
