import TradeEngine.Tos.Lemmas.Journal

/-!
# What the read-backs of a drain match

The rows of each read belong to tickets of the batch. As long as the rows of the ticket just sent
stand behind those of the tickets before it, the places claimed so far are the places of earlier
rows, so a ticket finds its own rows and no others.
-/

namespace TradeEngine.Tos

open Lib Prog

variable {A : Arith} {H : Host}

/-! ## One look -/

/-- The rows a drain reads back for a ticket; none where it does not send it or cannot read. -/
def rowsRead (H : Host) (t : Ticket) (w : World) : Option (List Row) :=
  match send H t w with
  | (.ok sent, w₁) =>
    if w.broker.halted || sent.status = .rejected then none
    else match readPositions H w₁ with
      | (.ok _, w₂) => (readWorking H w₂).1.toOption
      | (.error _, _) => none
  | (.error _, _) => none

/-- One ticket of a drain: what its read-back listed, the places matched, its acknowledgement. -/
structure Look where
  ticket : Ticket
  rows : Option (List Row)
  matched : List Nat
  ack : Ack

def lookTickets (A : Arith) (H : Host) : List Ticket → Book → List Nat → World → List Look
  | [], _, _, _ => []
  | t :: rest, before, claimed, w =>
    match drainTicket A H t before claimed w with
    | (.ok (a, book, claimed'), w') =>
      ⟨t, rowsRead H t w, claimed'.drop claimed.length, a⟩ :: lookTickets A H rest book claimed' w'
    | (.error _, _) => []

/-- A drain's looks; none if the venue could not be read first. -/
def looks (A : Arith) (H : Host) (w : World) : List Look :=
  match startBook A H w.broker.preflightBook
    { w with broker := { w.broker with preflightBook := none, queue := [], proven := .empty } } with
  | (.ok (.ok before), w₁) => lookTickets A H w.broker.queue before [] w₁
  | _ => []

/-- What one ticket of a drain that returned saw and claimed. -/
inductive Looked (A : Arith) (t : Ticket) (before : Book) (claimed : List Nat) :
    Option (List Row) → Ack → List Nat → Prop
  | unread {a : Ack} : Looked A t before claimed none a claimed
  | read {spec : Spec} {positions : List (Contract × Money)} {rows : List Row} {v : Verdict}
      {claimed' : List Nat} {a : Ack} (hspec : ticketFor t = .ok spec)
      (hconfirm : confirmTicket A t before positions rows claimed = .ok (v, claimed'))
      (hack : a.status = v.1) : Looked A t before claimed (some rows) a claimed'

theorem send_spec {t : Ticket} {sent : Ack} {w w' : World} (h : send H t w = (.ok sent, w'))
    (hsent : sent.status ≠ .rejected) : ∃ spec, ticketFor t = .ok spec := by
  unfold send at h
  rcases hspec : ticketFor t with e | spec
  all_goals simp only [hspec] at h
  · split at h
    · exact absurd (ack_ok h).1 hsent
    · simp at h
  · exact ⟨spec, rfl⟩

theorem readBack_looked {t : Ticket} {sent a : Ack} {before book : Book} {claimed claimed' : List Nat}
    {w w' : World} (hspec : ∃ spec, ticketFor t = .ok spec)
    (h : readBack A H t sent before claimed w = (.ok (a, book, claimed'), w')) :
    Looked A t before claimed (match readPositions H w with
      | (.ok _, w₂) => (readWorking H w₂).1.toOption
      | (.error _, _) => none) a claimed' := by
  obtain ⟨spec, hspec⟩ := hspec
  obtain ⟨read, m, hread, h⟩ := bind_ok.mp h
  rw [attempt_ok] at hread
  obtain ⟨hread, rfl⟩ := hread
  change (Prog.bind (readPositions H) _ w).1 = read at hread
  unfold Prog.bind at hread
  rcases hpos : readPositions H w with ⟨f | positions, w₂⟩
  · rw [hpos] at hread
    subst hread
    dsimp only at h
    split at h
    · simp at h
    · obtain ⟨_, _, hack, h⟩ := bind_ok.mp h
      obtain ⟨heq, -⟩ := pure_ok.mp h
      cases heq
      exact .unread
  · rw [hpos] at hread
    dsimp only at hread
    change (Prog.bind (readWorking H) _ w₂).1 = read at hread
    unfold Prog.bind at hread
    rcases hwork : readWorking H w₂ with ⟨f | working, w₃⟩
    · rw [hwork] at hread
      subst hread
      dsimp only at h
      split at h
      · simp at h
      · obtain ⟨_, _, hack, h⟩ := bind_ok.mp h
        obtain ⟨heq, -⟩ := pure_ok.mp h
        cases heq
        simp only [hwork]
        exact .unread
    · rw [hwork] at hread
      obtain rfl : Except.ok (positions, working) = read := hread
      dsimp only at h
      obtain ⟨⟨v, claimed''⟩, _, hlift, h⟩ := bind_ok.mp h
      have hconfirm := (lift_ok.mp hlift).1
      obtain ⟨_, m', hun, h⟩ := bind_ok.mp h
      obtain ⟨a', _, hack, h⟩ := bind_ok.mp h
      obtain ⟨hstatus, -⟩ := ack_ok hack
      obtain ⟨_, _, hbook, h⟩ := bind_ok.mp h
      obtain ⟨heq, -⟩ := pure_ok.mp h
      cases heq
      simp only [hwork]
      exact .read hspec hconfirm hstatus

theorem drainTicket_looked {t : Ticket} {a : Ack} {before book : Book} {claimed claimed' : List Nat}
    {w w' : World} (h : drainTicket A H t before claimed w = (.ok (a, book, claimed'), w')) :
    Looked A t before claimed (rowsRead H t w) a claimed' := by
  obtain ⟨_, _, hget, h⟩ := bind_ok.mp h
  obtain ⟨rfl, rfl⟩ := getBroker_ok.mp hget
  unfold rowsRead
  split at h
  · rename_i hhalted
    obtain ⟨_, m, hack, h⟩ := bind_ok.mp h
    obtain ⟨_, _, hun, h⟩ := bind_ok.mp h
    obtain ⟨heq, -⟩ := pure_ok.mp h
    cases heq
    rcases send H t w with ⟨f | sent, w₁⟩
    · exact .unread
    · simp only [hhalted, Bool.true_or, if_true]
      exact .unread
  · rename_i hrunning
    obtain ⟨sent, m, hsend, h⟩ := bind_ok.mp h
    simp only [hsend, hrunning, Bool.false_or, decide_eq_true_eq]
    split at h
    · rename_i hrejected
      obtain ⟨_, _, hun, h⟩ := bind_ok.mp h
      obtain ⟨heq, -⟩ := pure_ok.mp h
      cases heq
      rw [if_pos hrejected]
      exact .unread
    · rename_i hsent
      rw [if_neg hsent]
      exact readBack_looked (send_spec hsend hsent) h

theorem drainTickets_looks {ts : List Ticket} {before : Book} {claimed : List Nat} {acks acks' : List Ack}
    {w w' : World} (h : drainTickets A H ts before claimed acks w = (.ok acks', w')) :
    acks' = acks ++ (lookTickets A H ts before claimed w).map (·.ack) := by
  induction ts generalizing before claimed acks w with
  | nil =>
      obtain ⟨rfl, rfl⟩ := pure_ok.mp h
      simp [lookTickets]
  | cons t rest ih =>
      obtain ⟨⟨a, book, claimed'⟩, m, hticket, h⟩ := bind_ok.mp h
      rw [ih h, lookTickets, hticket]
      simp

theorem drain_looks {report : DrainReport} {w w' : World} (h : drain A H w = (.ok report, w')) :
    looks A H w = [] ∨ report.acks = (looks A H w).map (·.ack) := by
  obtain ⟨_, _, hconn, h⟩ := bind_ok.mp h
  cases requireConnected_ok hconn
  obtain ⟨_, _, hget, h⟩ := bind_ok.mp h
  obtain ⟨rfl, rfl⟩ := getBroker_ok.mp hget
  obtain ⟨_, _, hmodify, h⟩ := bind_ok.mp h
  rw [modify_ok] at hmodify
  subst hmodify
  split at h
  · rename_i hq
    refine Or.inl ?_
    unfold looks
    split
    · rw [hq]
      rfl
    · rfl
  · obtain ⟨_, _, hmodify, h⟩ := bind_ok.mp h
    rw [modify_ok] at hmodify
    subst hmodify
    obtain ⟨books, _, hbooks, h⟩ := bind_ok.mp h
    obtain ⟨-, rfl⟩ := lift_ok.mp hbooks
    obtain ⟨start, m, hstart, h⟩ := bind_ok.mp h
    dsimp only at hstart
    unfold looks
    rw [hstart]
    cases start with
    | error f => exact Or.inl rfl
    | ok before =>
        refine Or.inr ?_
        obtain ⟨acks, m', hacks, h⟩ := bind_ok.mp h
        rw [finish_acks h, drainTickets_looks hacks]
        simp

/-! ## Rows and their owners -/

/-- A leg of the ticket at a place of the batch. -/
structure Owner where
  ticket : Ticket
  place : Nat
  leg : Nat

/-- The row a truthful venue shows for a leg of a ticket, in whatever state. -/
def RowOf (A : Arith) (o : Owner) (row : Row) : Prop :=
  match o.ticket.instrument with
  | .single _ => o.leg = 0 ∧ ticketRow o.ticket row = true
  | .combo legs => ∃ leg, legs[o.leg]? = some leg ∧ row.contract = leg.contract ∧ row.side = leg.side ∧
      Ops.mulI A o.ticket.quantity leg.ratio = .ok row.quantity ∧ row.orderType = o.ticket.orderType ∧
      row.limitPrice = o.ticket.limitPrice

/-- The legs of the ticket at a place: one, or one for each leg of a combo. -/
def ownersOf (t : Ticket) (n : Nat) : List Owner :=
  match t.instrument with
  | .single _ => [⟨t, n, 0⟩]
  | .combo legs => (List.range legs.length).map (⟨t, n, ·⟩)

/-- What the venue knows of one ticket's turn: whether it reached the venue, and whose the rows are
that the read-back listed. -/
structure Shown where
  reached : Bool
  owners : List Owner

def Shown.own (s : Shown) (t : Ticket) (n : Nat) : List Owner := if s.reached then ownersOf t n else []

/-- A truthful venue, from a book of `placed` rows on: each read lists, in some order, one row for each
leg of the tickets that reached it. -/
inductive Truthful (A : Arith) : List Owner → Nat → List Look → List Shown → Prop
  | nil {placed : List Owner} {n : Nat} : Truthful A placed n [] []
  | cons {placed : List Owner} {n : Nat} {l : Look} {s : Shown} {ls : List Look} {ss : List Shown}
      (rows : ∀ rows, l.rows = some rows → List.Forall₂ (RowOf A) s.owners rows ∧
        s.owners.Perm (placed ++ s.own l.ticket n))
      (rest : Truthful A (placed ++ s.own l.ticket n) (n + 1) ls ss) :
      Truthful A placed n (l :: ls) (s :: ss)

/-- A ticket that reached the venue is read back, and its rows are listed behind those of the tickets
before it. -/
structure InOrder (n : Nat) (l : Look) (s : Shown) : Prop where
  read : s.reached = true → l.rows.isSome = true
  behind : l.rows.isSome = true → ∃ earlier own, s.owners = earlier ++ own ∧
    (∀ o ∈ earlier, o.place ≠ n) ∧ ∀ o ∈ own, o.place = n

def standing (st : OrderState) : Bool := live st || st = .filled

def endedUnfilled : OrderState → Bool
  | .cancelled | .rejected | .expired => true
  | _ => false

/-- The rows among `rows` that belong to the ticket at a place. -/
def rowsAtPlace (n : Nat) (owners : List Owner) (rows : List Row) : List Row :=
  ((owners.zip rows).filter fun e => e.1.place = n).map (·.2)

/-- What a read-back may conclude: the matched rows are the ticket's own, and its acknowledgement is
what they say. -/
structure Confirmed (n : Nat) (l : Look) (s : Shown) (rows : List Row) : Prop where
  own : ∀ i ∈ l.matched, ∃ o, s.owners[i]? = some o ∧ o.place = n
  accepted : s.reached = true → (∀ row ∈ rowsAtPlace n s.owners rows, standing row.state = true) →
    l.ack.status = .accepted
  rejected : s.reached = true → (∀ row ∈ rowsAtPlace n s.owners rows, endedUnfilled row.state = true) →
    l.ack.status = .rejected

/-! ## Matching -/

def Found (p : Row → R Bool) (skip : List Nat) (l : List (Row × Nat)) : Option Nat → Prop
  | none => ∀ e ∈ l, e.2 ∉ skip → p e.1 = .ok false
  | some i => ∃ row, (row, i) ∈ l ∧ i ∉ skip ∧ p row = .ok true

theorem Found.cons {p : Row → R Bool} {skip : List Nat} {l : List (Row × Nat)} {r : Option Nat}
    {e : Row × Nat} (h : Found p skip l r) (he : e.2 ∈ skip ∨ p e.1 = .ok false) :
    Found p skip (e :: l) r := by
  cases r with
  | none =>
      intro x hx hskip
      rcases List.mem_cons.mp hx with rfl | hx
      · exact he.resolve_left hskip
      · exact h x hx hskip
  | some i =>
      obtain ⟨row, hrow, hi⟩ := h
      exact ⟨row, List.mem_cons_of_mem _ hrow, hi⟩

theorem findRow_ok {p : Row → R Bool} {skip : List Nat} {l : List (Row × Nat)} {r : Option Nat}
    (h : findRow p skip l = .ok r) : Found p skip l r := by
  induction l with
  | nil =>
      cases h
      simp [Found]
  | cons e l ih =>
      unfold findRow at h
      split at h
      · exact (ih h).cons (Or.inl ‹_›)
      · rename_i hskip
        simp only [bind_eq_ok] at h
        obtain ⟨b, hb, h⟩ := h
        cases b with
        | true =>
            cases h
            exact ⟨e.1, List.mem_cons_self, hskip, hb⟩
        | false => exact (ih h).cons (Or.inr hb)

theorem mem_zipIdx {α : Type} {l : List α} {a : α} {i : Nat} : (a, i) ∈ l.zipIdx ↔ l[i]? = some a := by
  rw [List.mk_mem_zipIdx_iff_getElem?]

/-- A read in order: the claimed places are those of the earlier rows, and the rest are the ticket's. -/
structure Reading (A : Arith) (t : Ticket) (n : Nat) (s : Shown) (rows : List Row)
    (claimed : List Nat) : Prop where
  mine : ∀ i, i ∉ claimed → ∀ row, rows[i]? = some row →
    ∃ o, s.owners[i]? = some o ∧ o ∈ s.own t n ∧ RowOf A o row
  there : ∀ o ∈ s.own t n, ∃ i row, i ∉ claimed ∧ rows[i]? = some row ∧ s.owners[i]? = some o ∧ RowOf A o row

theorem own_place {s : Shown} {t : Ticket} {n : Nat} {o : Owner} (h : o ∈ s.own t n) :
    o.place = n ∧ o.ticket = t := by
  unfold Shown.own ownersOf at h
  split at h
  · split at h
    · rw [List.mem_singleton] at h
      rw [h]
      exact ⟨rfl, rfl⟩
    · obtain ⟨k, -, rfl⟩ := List.mem_map.mp h
      exact ⟨rfl, rfl⟩
  · cases h

theorem mem_rowsAtPlace {n i : Nat} {owners : List Owner} {rows : List Row} {o : Owner} {row : Row}
    (hrow : rows[i]? = some row) (ho : owners[i]? = some o) (hn : o.place = n) :
    row ∈ rowsAtPlace n owners rows := by
  refine List.mem_map.mpr ⟨(o, row), List.mem_filter.mpr ⟨?_, by simpa using hn⟩, rfl⟩
  refine List.mem_iff_getElem?.mpr ⟨i, ?_⟩
  rw [List.getElem?_zip_eq_some]
  exact ⟨ho, hrow⟩

/-- What is concluded from a reading: the places matched hold the ticket's own rows, each once and all
of them, and the verdict is what they say. -/
structure Judged (t : Ticket) (n : Nat) (s : Shown) (rows : List Row) (v : Verdict)
    (matched : List Nat) : Prop where
  nodup : matched.Nodup
  all : matched.length = (s.own t n).length
  own : ∀ i ∈ matched, ∃ o row, s.owners[i]? = some o ∧ rows[i]? = some row ∧ o ∈ s.own t n
  accepted : s.reached = true → (∀ row ∈ rowsAtPlace n s.owners rows, standing row.state = true) →
    v.1 = .accepted
  rejected : s.reached = true → (∀ row ∈ rowsAtPlace n s.owners rows, endedUnfilled row.state = true) →
    v.1 = .rejected

theorem own_unreached {s : Shown} {t : Ticket} {n : Nat} (h : s.reached = false) : s.own t n = [] := by
  rw [Shown.own, h]
  rfl

theorem Judged.unreached {t : Ticket} {n : Nat} {s : Shown} {rows : List Row} {v : Verdict}
    (h : s.reached = false) : Judged t n s rows v [] where
  nodup := List.nodup_nil
  all := by rw [own_unreached h]; rfl
  own i hi := by simp at hi
  accepted hr := by simp [h] at hr
  rejected hr := by simp [h] at hr

theorem rowVerdict_standing {row : Row} (h : standing row.state = true) :
    (rowVerdict row).1 = .accepted := by
  simp only [standing, Bool.or_eq_true, decide_eq_true_eq] at h
  unfold rowVerdict
  rcases h with hlive | hfilled
  · rw [if_pos (show row.live = true from hlive)]
  · rw [if_pos hfilled]
    split <;> rfl

theorem rowVerdict_ended {row : Row} (h : endedUnfilled row.state = true) :
    (rowVerdict row).1 = .rejected := by
  unfold rowVerdict Row.live
  cases hs : row.state <;> rw [hs] at h <;> simp [endedUnfilled] at h <;> simp [live]

theorem legsVerdict_standing {states : List OrderState} (h : ∀ st ∈ states, standing st = true) :
    (legsVerdict states).1 = .accepted := by
  have hknown : OrderState.pendingUnknown ∉ states := fun hmem => by
    have := h _ hmem
    simp [standing, live] at this
  have hnone : states.find? (fun st => !(st = .filled) && !live st) = none := by
    rw [List.find?_eq_none]
    intro st hst
    have := h st hst
    simp only [standing, Bool.or_eq_true, decide_eq_true_eq] at this
    rcases this with hlive | rfl
    · simp [hlive]
    · simp
  rw [legsVerdict, if_neg hknown, hnone]

theorem legsVerdict_ended {st : OrderState} {states : List OrderState}
    (h : ∀ x ∈ st :: states, endedUnfilled x = true) : (legsVerdict (st :: states)).1 = .rejected := by
  have hknown : OrderState.pendingUnknown ∉ st :: states := fun hmem => by
    have := h _ hmem
    simp [endedUnfilled] at this
  have hhead := h st List.mem_cons_self
  have hfind : (st :: states).find? (fun st => !(st = .filled) && !live st) = some st := by
    rw [List.find?_cons_of_pos]
    cases st <;> simp [endedUnfilled] at hhead <;> simp [live]
  rw [legsVerdict, if_neg hknown, hfind]

section Confirm

variable {t : Ticket} {n : Nat} {s : Shown} {rows : List Row} {claimed : List Nat}

theorem Reading.single {c : Contract} (h : Reading A t n s rows claimed) (hi : t.instrument = .single c)
    {before : Book} {positions : List (Contract × Money)} {v : Verdict} {claimed' : List Nat}
    (hconfirm : confirmTicket A t before positions rows claimed = .ok (v, claimed')) :
    ∃ matched, claimed' = claimed ++ matched ∧ Judged t n s rows v matched := by
  have hown : s.reached = true → s.own t n = [⟨t, n, 0⟩] := by
    intro hr
    rw [Shown.own, if_pos hr, ownersOf, hi]
  unfold confirmTicket at hconfirm
  rw [hi] at hconfirm
  simp only [bind_eq_ok] at hconfirm
  obtain ⟨r, hr, hconfirm⟩ := hconfirm
  have hfound := findRow_ok hr
  cases r with
  | some i =>
      obtain ⟨row, hrow, hskip, -⟩ := hfound
      rw [mem_zipIdx] at hrow
      obtain ⟨o, ho, hmine, -⟩ := h.mine i hskip row hrow
      rw [pure_eq_ok, hrow] at hconfirm
      obtain ⟨rfl, rfl⟩ := Prod.mk.inj hconfirm
      have hreached : s.reached = true := by
        by_contra hne
        rw [own_unreached (by simpa using hne)] at hmine
        cases hmine
      have hat := mem_rowsAtPlace hrow ho (own_place hmine).1
      refine ⟨[i], rfl, List.nodup_singleton _, by rw [hown hreached]; rfl, ?_, ?_, ?_⟩
      · intro j hj
        rw [List.mem_singleton] at hj
        rw [hj]
        exact ⟨o, row, ho, hrow, hmine⟩
      · exact fun _ hst => rowVerdict_standing (hst row hat)
      · exact fun _ hst => rowVerdict_ended (hst row hat)
  | none =>
      have hunreached : s.reached = false := by
        by_contra hne
        have hr : s.reached = true := by simpa using hne
        obtain ⟨i, row, hskip, hrow, -, hof⟩ := h.there ⟨t, n, 0⟩ (by rw [hown hr]; exact List.mem_singleton_self _)
        have hno := hfound (row, i) (mem_zipIdx.mpr hrow) hskip
        simp only [RowOf, hi] at hof
        dsimp only at hno
        rw [hof.2] at hno
        cases hno
      have hsame : claimed' = claimed := by
        simp only [bind_eq_ok] at hconfirm
        obtain ⟨_, -, _, -, _, -, hconfirm⟩ := hconfirm
        split at hconfirm <;> · rw [pure_eq_ok] at hconfirm; exact (Prod.mk.inj hconfirm).2.symm
      exact ⟨[], by rw [hsame, List.append_nil], .unreached hunreached⟩

theorem ticketFor_legs {legs : List ComboLeg} {spec : Spec} (hi : t.instrument = .combo legs)
    (h : ticketFor t = .ok spec) : ∃ a b, legs = [a, b] ∧ a.contract ≠ b.contract := by
  rw [ticketFor, hi] at h
  simp only [comboTicket, bind_eq_ok] at h
  obtain ⟨reason, hreason, h⟩ := h
  unfold verticalReason at hreason
  split at hreason
  · rename_i a ra sa ha b rb sb hb
    refine ⟨_, _, rfl, fun heq => ?_⟩
    have hab : a = b := by simpa using heq
    rw [pure_eq_ok, hab] at hreason
    simp at hreason
    rw [← hreason] at h
    cases h
  · simp only [bind_eq_ok, pure_eq_ok] at hreason
    obtain ⟨_, -, rfl⟩ := hreason
    cases h

theorem legRow_own {k : Nat} {legs : List ComboLeg} {leg : ComboLeg} {row : Row}
    (hi : t.instrument = .combo legs) (hleg : legs[k]? = some leg) (h : RowOf A ⟨t, n, k⟩ row) :
    legRow A t leg row = .ok true := by
  simp only [RowOf, hi] at h
  obtain ⟨leg', hleg', hc, hside, hq, htype, hlimit⟩ := h
  rw [hleg] at hleg'
  obtain rfl := Option.some.inj hleg'
  rw [legRow, if_pos ⟨hc, hside⟩, hq]
  simp [htype, hlimit]

theorem legRow_contract {leg : ComboLeg} {row : Row} (h : legRow A t leg row = .ok true) :
    row.contract = leg.contract := by
  unfold legRow at h
  split at h
  · rename_i hc
    exact hc.1
  · cases h

theorem Reading.combo {legs : List ComboLeg} {spec : Spec} (h : Reading A t n s rows claimed)
    (hi : t.instrument = .combo legs) (hspec : ticketFor t = .ok spec)
    {before : Book} {positions : List (Contract × Money)} {v : Verdict} {claimed' : List Nat}
    (hconfirm : confirmTicket A t before positions rows claimed = .ok (v, claimed')) :
    ∃ matched, claimed' = claimed ++ matched ∧ Judged t n s rows v matched := by
  obtain ⟨a, b, rfl, hne⟩ := ticketFor_legs hi hspec
  have hown : s.reached = true → s.own t n = [⟨t, n, 0⟩, ⟨t, n, 1⟩] := by
    intro hr
    rw [Shown.own, if_pos hr, ownersOf, hi]
    rfl
  -- an unclaimed row of one leg's contract is that leg's
  have hleg : ∀ i row, i ∉ claimed → rows[i]? = some row → ∃ k, (k = 0 ∧ row.contract = a.contract ∨
      k = 1 ∧ row.contract = b.contract) ∧ s.owners[i]? = some ⟨t, n, k⟩ ∧ ⟨t, n, k⟩ ∈ s.own t n := by
    intro i row hskip hrow
    obtain ⟨o, ho, hmine, hof⟩ := h.mine i hskip row hrow
    have hreached : s.reached = true := by
      by_contra hno
      rw [own_unreached (by simpa using hno)] at hmine
      cases hmine
    rw [hown hreached] at hmine ⊢
    simp only [List.mem_cons, List.not_mem_nil, or_false] at hmine
    rcases hmine with rfl | rfl
    · simp only [RowOf, hi] at hof
      obtain ⟨leg, hl, hc, -⟩ := hof
      cases hl
      exact ⟨0, Or.inl ⟨rfl, hc⟩, ho, by simp⟩
    · simp only [RowOf, hi] at hof
      obtain ⟨leg, hl, hc, -⟩ := hof
      cases hl
      exact ⟨1, Or.inr ⟨rfl, hc⟩, ho, by simp⟩
  unfold confirmTicket at hconfirm
  rw [hi] at hconfirm
  simp only [confirmCombo, comboRows, bind_eq_ok] at hconfirm
  obtain ⟨found, hfound, hconfirm⟩ := hconfirm
  obtain ⟨ra, hra, hfound⟩ := hfound
  have hfirst := findRow_ok hra
  rw [List.append_nil] at hfirst
  cases ra with
  | none =>
      rw [pure_eq_ok] at hfound
      subst hfound
      have hunreached : s.reached = false := by
        by_contra hno
        have hr : s.reached = true := by simpa using hno
        obtain ⟨i, row, hskip, hrow, -, hof⟩ := h.there ⟨t, n, 0⟩ (by rw [hown hr]; simp)
        have hfalse := hfirst (row, i) (mem_zipIdx.mpr hrow) hskip
        dsimp only at hfalse
        rw [legRow_own hi rfl hof] at hfalse
        cases hfalse
      have hsame : claimed' = claimed := by
        simp only [bind_eq_ok] at hconfirm
        obtain ⟨_, -, _, -, _, -, hconfirm⟩ := hconfirm
        split at hconfirm <;> · rw [pure_eq_ok] at hconfirm; exact (Prod.mk.inj hconfirm).2.symm
      exact ⟨[], by rw [hsame, List.append_nil], .unreached hunreached⟩
  | some i =>
      obtain ⟨row, hrow, hskip, htrue⟩ := hfirst
      rw [mem_zipIdx] at hrow
      obtain ⟨k, hk, hi0, hmine⟩ := hleg i row hskip hrow
      have hk0 : k = 0 := by
        rcases hk with hk | ⟨-, hc⟩
        · exact hk.1
        · exact absurd ((legRow_contract htrue).symm.trans hc) hne
      subst hk0
      have hreached : s.reached = true := by
        by_contra hno
        rw [own_unreached (by simpa using hno)] at hmine
        cases hmine
      simp only [bind_eq_ok] at hfound
      obtain ⟨rb, hrb, hfound⟩ := hfound
      have hsecond := findRow_ok hrb
      cases rb with
      | none =>
          exfalso
          obtain ⟨j, row', hskip', hrow', hj, hof⟩ := h.there ⟨t, n, 1⟩ (by rw [hown hreached]; simp)
          have hji : j ≠ i := by
            rintro rfl
            rw [hi0] at hj
            cases hj
          have hfalse := hsecond (row', j) (mem_zipIdx.mpr hrow') (by simpa [hskip'] using hji)
          dsimp only at hfalse
          rw [legRow_own hi rfl hof] at hfalse
          cases hfalse
      | some j =>
          obtain ⟨row', hrow', hskip', htrue'⟩ := hsecond
          rw [mem_zipIdx] at hrow'
          simp only [List.nil_append, List.mem_append, List.mem_singleton, not_or] at hskip'
          obtain ⟨k', -, hj, hmine'⟩ := hleg j row' hskip'.1 hrow'
          rw [pure_eq_ok] at hfound
          subst hfound
          rw [pure_eq_ok] at hconfirm
          obtain ⟨rfl, rfl⟩ := Prod.mk.inj hconfirm
          have hat := mem_rowsAtPlace hrow hi0 rfl
          have hat' := mem_rowsAtPlace hrow' hj rfl
          have hstates : [i, j].filterMap (fun i => (rows[i]?).map (·.state)) = [row.state, row'.state] := by
            simp [hrow, hrow']
          refine ⟨[i, j], rfl, by simpa using Ne.symm hskip'.2, by rw [hown hreached]; rfl, ?_, ?_, ?_⟩
          · intro x hx
            simp only [List.mem_cons, List.not_mem_nil, or_false] at hx
            rcases hx with rfl | rfl
            · exact ⟨_, row, hi0, hrow, hmine⟩
            · exact ⟨_, row', hj, hrow', hmine'⟩
          · intro _ hst
            simp only [List.nil_append, List.singleton_append, hstates]
            refine legsVerdict_standing fun st hmem => ?_
            simp only [List.mem_cons, List.not_mem_nil, or_false] at hmem
            rcases hmem with rfl | rfl
            · exact hst row hat
            · exact hst row' hat'
          · intro _ hst
            simp only [List.nil_append, List.singleton_append, hstates]
            refine legsVerdict_ended fun st hmem => ?_
            simp only [List.mem_cons, List.not_mem_nil, or_false] at hmem
            rcases hmem with rfl | rfl
            · exact hst row hat
            · exact hst row' hat'

theorem Reading.judged {spec : Spec} (h : Reading A t n s rows claimed) (hspec : ticketFor t = .ok spec)
    {before : Book} {positions : List (Contract × Money)} {v : Verdict} {claimed' : List Nat}
    (hconfirm : confirmTicket A t before positions rows claimed = .ok (v, claimed')) :
    ∃ matched, claimed' = claimed ++ matched ∧ Judged t n s rows v matched := by
  cases hi : t.instrument with
  | single c => exact h.single hi hconfirm
  | combo legs => exact h.combo hi hspec hconfirm

/-! ## The whole batch -/

theorem forall₂_getElem? {α β : Type} {R : α → β → Prop} {l : List α} {r : List β}
    (h : List.Forall₂ R l r) {i : Nat} {a : α} {b : β} (ha : l[i]? = some a) (hb : r[i]? = some b) :
    R a b := by
  induction h generalizing i with
  | nil => simp at ha
  | cons hab _ ih =>
      cases i with
      | zero =>
          simp only [List.getElem?_cons_zero, Option.some.injEq] at ha hb
          rw [← ha, ← hb]
          exact hab
      | succ i => exact ih (by simpa using ha) (by simpa using hb)

/-- Of the rows of a read the earlier ones come first, so the claimed places are theirs. -/
theorem reading_of_order {placed : List Owner} {l : Look} (hplaced : ∀ o ∈ placed, o.place < n)
    (hclaimed : ∀ i, i ∈ claimed ↔ i < placed.length) (hrows : List.Forall₂ (RowOf A) s.owners rows)
    (hperm : s.owners.Perm (placed ++ s.own t n)) (horder : InOrder n l s) (hread : l.rows = some rows) :
    Reading A t n s rows claimed ∧ ∀ i o, s.owners[i]? = some o → o ∈ s.own t n → placed.length ≤ i := by
  obtain ⟨earlier, own, howners, hearlier, hown⟩ := horder.behind (by rw [hread]; rfl)
  have hmine : ∀ o ∈ s.own t n, o.place = n := fun o ho => (own_place ho).1
  have hfirst : earlier.Perm placed := by
    have hfilter := hperm.filter fun o => o.place ≠ n
    have hkeep : ∀ {l : List Owner}, (∀ o ∈ l, o.place ≠ n) → l.filter (fun o => o.place ≠ n) = l :=
      fun h => List.filter_eq_self.mpr fun o ho => by simpa using h o ho
    have hdrop : ∀ {l : List Owner}, (∀ o ∈ l, o.place = n) → l.filter (fun o => o.place ≠ n) = [] :=
      fun h => List.filter_eq_nil_iff.mpr fun o ho => by simpa using h o ho
    rw [howners, List.filter_append, List.filter_append, hkeep hearlier, hdrop hown, hdrop hmine,
      hkeep fun o ho => (hplaced o ho).ne, List.append_nil, List.append_nil] at hfilter
    exact hfilter
  have hsecond : own.Perm (s.own t n) := by
    rw [howners] at hperm
    exact (List.perm_append_left_iff earlier).mp (hperm.trans (hfirst.symm.append_right _))
  have hlen : s.owners.length = rows.length := hrows.length_eq
  have hpast : ∀ i o, s.owners[i]? = some o → o ∈ s.own t n → placed.length ≤ i := by
    intro i o ho hos
    by_contra hlt
    rw [howners, List.getElem?_append_left (by rw [hfirst.length_eq]; omega)] at ho
    exact hearlier o (List.mem_of_getElem? ho) (hmine o hos)
  refine ⟨⟨?_, ?_⟩, hpast⟩
  · intro i hskip row hrow
    have hge : placed.length ≤ i := by
      rw [hclaimed] at hskip
      omega
    have hlt : i < s.owners.length := by
      rw [hlen]
      exact (List.getElem?_eq_some_iff.mp hrow).1
    obtain ⟨o, ho⟩ : ∃ o, s.owners[i]? = some o := ⟨_, List.getElem?_eq_getElem hlt⟩
    refine ⟨o, ho, hsecond.mem_iff.mp ?_, forall₂_getElem? hrows ho hrow⟩
    rw [howners, List.getElem?_append_right (by rw [hfirst.length_eq]; exact hge)] at ho
    exact List.mem_of_getElem? ho
  · intro o ho
    obtain ⟨j, hj⟩ := List.mem_iff_getElem?.mp (hsecond.mem_iff.mpr ho)
    have hat : s.owners[earlier.length + j]? = some o := by
      rw [howners, List.getElem?_append_right (by omega), Nat.add_sub_cancel_left]
      exact hj
    have hlt : earlier.length + j < rows.length := by
      rw [← hlen]
      exact (List.getElem?_eq_some_iff.mp hat).1
    have hrow := List.getElem?_eq_getElem hlt
    refine ⟨_, _, ?_, hrow, hat, forall₂_getElem? hrows hat hrow⟩
    rw [hclaimed]
    have := hfirst.length_eq
    omega

/-- Distinct places past the earlier rows, as many as there are new rows, are the places of those. -/
theorem places_grow {placed own : List Owner} {matched : List Nat}
    (hclaimed : ∀ i, i ∈ claimed ↔ i < placed.length) (hnodup : matched.Nodup)
    (hlen : matched.length = own.length)
    (hin : ∀ i ∈ matched, placed.length ≤ i ∧ i < placed.length + own.length) (i : Nat) :
    i ∈ claimed ++ matched ↔ i < (placed ++ own).length := by
  have hsub : matched ⊆ List.range' placed.length own.length := fun j hj => by
    rw [List.mem_range'_1]
    exact hin j hj
  have hperm := (hnodup.subperm hsub).perm_of_length_le (by rw [List.length_range', hlen])
  rw [List.mem_append, hclaimed, hperm.mem_iff, List.mem_range'_1, List.length_append]
  omega

theorem lookTickets_confirmed {ts : List Ticket} {before : Book} {w : World} {placed : List Owner}
    {shown : List Shown} (hplaced : ∀ o ∈ placed, o.place < n)
    (hclaimed : ∀ i, i ∈ claimed ↔ i < placed.length)
    (htrue : Truthful A placed n (lookTickets A H ts before claimed w) shown)
    (horder : ∀ k l s, (lookTickets A H ts before claimed w)[k]? = some l → shown[k]? = some s →
      InOrder (n + k) l s) :
    ∀ k l s rows, (lookTickets A H ts before claimed w)[k]? = some l → shown[k]? = some s →
      l.rows = some rows → Confirmed (n + k) l s rows := by
  induction ts generalizing before claimed w placed shown n with
  | nil =>
      intro k l s rows hl
      simp [lookTickets] at hl
  | cons t ts ih =>
      unfold lookTickets at htrue horder ⊢
      rcases hone : drainTicket A H t before claimed w with ⟨f | ⟨a, book, claimed'⟩, w'⟩
      · intro k l s rows hl
        simp at hl
      · rw [hone] at htrue horder
        dsimp only at htrue horder ⊢
        have hlooked := drainTicket_looked hone
        generalize hlook : Look.mk t (rowsRead H t w) (claimed'.drop claimed.length) a = look at *
        obtain rfl : look.ticket = t := by rw [← hlook]
        have hrowsRead : look.rows = rowsRead H look.ticket w := by rw [← hlook]
        cases htrue with
        | @cons _ _ _ s _ ss hrows hrest =>
            have hhead := horder 0 look s rfl rfl
            rw [add_zero] at hhead
            -- the first ticket, and the places claimed after it
            have hfirst : (∀ rows, look.rows = some rows → Confirmed n look s rows) ∧
                ∀ i, i ∈ claimed' ↔ i < (placed ++ s.own look.ticket n).length := by
              rw [← hrowsRead] at hlooked
              cases hread : look.rows with
              | none =>
                  have hunreached : s.reached = false := by
                    by_contra hne
                    have hsome := hhead.read (by simpa using hne)
                    rw [hread] at hsome
                    cases hsome
                  rw [hread] at hlooked
                  cases hlooked
                  refine ⟨fun rows h => by simp at h, fun i => ?_⟩
                  rw [own_unreached hunreached, List.append_nil]
                  exact hclaimed i
              | some rows =>
                  obtain ⟨hof, hperm⟩ := hrows rows hread
                  obtain ⟨hreading, hpast⟩ := reading_of_order hplaced hclaimed hof hperm hhead hread
                  rw [hread] at hlooked
                  cases hlooked with
                  | read hspec hconfirm hack =>
                      obtain ⟨matched, rfl, hjudged⟩ := hreading.judged hspec hconfirm
                      have hm : look.matched = matched := by
                        rw [← hlook]
                        exact List.drop_left
                      have ha : look.ack = a := by rw [← hlook]
                      refine ⟨fun rows' hrows' => ?_, places_grow hclaimed hjudged.nodup hjudged.all ?_⟩
                      · obtain rfl := Option.some.inj hrows'
                        refine ⟨fun i hi => ?_, ?_, ?_⟩
                        · rw [hm] at hi
                          obtain ⟨o, row, ho, -, hmem⟩ := hjudged.own i hi
                          exact ⟨o, ho, (own_place hmem).1⟩
                        · exact fun hr hst => by rw [ha, hack]; exact hjudged.accepted hr hst
                        · exact fun hr hst => by rw [ha, hack]; exact hjudged.rejected hr hst
                      · intro i hi
                        obtain ⟨o, row, ho, -, hmem⟩ := hjudged.own i hi
                        refine ⟨hpast i o ho hmem, ?_⟩
                        have hlt := (List.getElem?_eq_some_iff.mp ho).1
                        rw [hperm.length_eq, List.length_append] at hlt
                        exact hlt
            have hplaced' : ∀ o ∈ placed ++ s.own look.ticket n, o.place < n + 1 := by
              intro o ho
              rcases List.mem_append.mp ho with ho | ho
              · exact (hplaced o ho).trans (Nat.lt_succ_self n)
              · rw [(own_place ho).1]
                exact Nat.lt_succ_self n
            have hlater := ih hplaced' hfirst.2 hrest fun k l s' hl hs' => by
              have := horder (k + 1) l s' (by simpa using hl) (by simpa using hs')
              rwa [Nat.add_assoc, Nat.add_comm 1 k]
            intro k l s' rows hl hs' hr
            cases k with
            | zero =>
                simp only [List.getElem?_cons_zero, Option.some.injEq] at hl hs'
                subst hl hs'
                exact hfirst.1 rows hr
            | succ k =>
                have := hlater k l s' rows (by simpa using hl) (by simpa using hs') hr
                rwa [Nat.add_assoc, Nat.add_comm 1 k] at this

end Confirm

end TradeEngine.Tos
