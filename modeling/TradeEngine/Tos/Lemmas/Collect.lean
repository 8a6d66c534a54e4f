import TradeEngine.Ledger.Lemmas.Sized
import TradeEngine.Tos.Lemmas.Journal

/-!
# The documents of one read of the venue's fills

What a row says of its ticket is in the mirror already or in a document still to be applied. Applying
one document keeps that, in whatever order they come, so once none is left the mirror says what the
rows say.
-/

namespace TradeEngine.Tos

open Lib Prog

variable {A : Arith} {D : RustDecimal} {H : Host}

/-! ## One read -/

/-- The rows the host answers with at its `n`-th call. -/
def fillsAt (H : Host) (n : Nat) : X (List FillRow) := do
  let rows ← H.readOrderFills n
  (rows.mapM id).mapError .ofErr

theorem readFills_eq (w : World) : readFills H w = (fillsAt H w.tick, { w with tick := w.tick + 1 }) := by
  change Prog.bind (ask H.readOrderFills) (fun rows => lift (rows.mapM id)) w = _
  unfold Prog.bind ask fillsAt
  cases H.readOrderFills w.tick <;> rfl

/-- What a collection that returned read and found. -/
structure Collects (A : Arith) (H : Host) (m : MirrorState) (w : World) (rows : List FillRow)
    (c : Collection) : Prop where
  connected : w.broker.connected = true
  venue : m.venue.getD w.broker.venue = w.broker.venue
  able : H.canReadFills w.tick = .ok true
  read : fillsAt H (w.tick + 2) = .ok rows
  contracts : ∃ l, contractsOf A ((tracked m).map (·.queued)) = .ok l
  once : twice rows [] = none
  tally : ∃ now, H.now (w.tick + 1) = .ok now ∧
    (tracked m).foldlM (tallyTicket w.broker.venue now rows) ⟨⟨[], []⟩, []⟩ = .ok ⟨c, []⟩

theorem unreadableHalt_ne_ok {α : Type} {event : R VenueReconcile} {a : α} {w w' : World} :
    unreadableHalt event w ≠ (.ok a, w') := by
  intro h
  obtain ⟨_, _, -, h⟩ := bind_ok.mp h
  obtain ⟨_, _, -, h⟩ := bind_ok.mp h
  exact fail_ok.mp h

theorem collectFills_ok {m : MirrorState} {w w' : World} {c : Collection}
    (h : collectFills A H m w = (.ok c, w')) : ∃ rows, Collects A H m w rows c := by
  simp only [collectFills, requireConnected, bind_ok, getBroker_ok, lift_ok, ask_ok, refuseIf_eq_ok,
    not_not, Bool.not_eq_true', Bool.not_eq_false, attempt_ok, readFills_eq] at h
  obtain ⟨_, _, ⟨_, _, ⟨rfl, rfl⟩, hconn, rfl⟩, _, _, ⟨rfl, rfl⟩, _, _, ⟨hvenue, rfl⟩, able, _,
    ⟨hable, rfl⟩, _, _, ⟨htrue, rfl⟩, now, _, ⟨hnow, rfl⟩, l, _, ⟨hl, rfl⟩, read, _, ⟨hread, rfl⟩, h⟩ := h
  dsimp only at hable htrue hnow hread
  subst htrue
  cases read with
  | error f =>
      dsimp only at h
      split at h
      · exact absurd h (by simp)
      · exact absurd h unreadableHalt_ne_ok
  | ok rows =>
      dsimp only at h
      cases honce : twice rows [] with
      | some id =>
          rw [honce] at h
          exact absurd h unreadableHalt_ne_ok
      | none =>
          rw [honce] at h
          simp only [bind_ok, lift_ok] at h
          obtain ⟨tally, _, ⟨htally, rfl⟩, h⟩ := h
          split at h
          · exact absurd h unreadableHalt_ne_ok
          · rename_i hnone
            obtain ⟨rfl, -⟩ := pure_ok.mp h
            obtain ⟨c, contradicted⟩ := tally
            obtain rfl := not_not.mp hnone
            exact ⟨rows, hconn, hvenue, hable, hread, ⟨l, hl⟩, honce, now, hnow, htally⟩

theorem Collects.run {m : MirrorState} {w : World} {rows : List FillRow} {c : Collection}
    (h : Collects A H m w rows c) : (collectFills A H m w).1 = .ok c := by
  obtain ⟨l, hl⟩ := h.contracts
  obtain ⟨now, hnow, htally⟩ := h.tally
  suffices hrun : collectFills A H m w = (.ok c, { w with tick := w.tick + 1 + 1 + 1 }) by rw [hrun]
  simp only [collectFills, requireConnected, bind_ok, getBroker_ok, lift_ok, ask_ok, refuseIf_eq_ok,
    not_not, Bool.not_eq_true', Bool.not_eq_false, attempt_ok, readFills_eq]
  refine ⟨(), w, ⟨_, _, ⟨rfl, rfl⟩, h.connected, rfl⟩, _, _, ⟨rfl, rfl⟩, (), _, ⟨h.venue, rfl⟩, true, _,
    ⟨h.able, rfl⟩, (), _, ⟨rfl, rfl⟩, now, _, ⟨hnow, rfl⟩, l, _, ⟨hl, rfl⟩, .ok rows, _, ⟨h.read, rfl⟩, ?_⟩
  dsimp only
  rw [h.once]
  simp only [bind_ok, lift_ok]
  refine ⟨⟨c, []⟩, _, ⟨htally, rfl⟩, ?_⟩
  rw [if_neg (by simp)]
  exact pure_ok.mpr ⟨rfl, rfl⟩

/-! ## What the rows say of the tickets -/

def rowOf (rows : List FillRow) (t : MirrorTicketState) : Option FillRow :=
  rows.find? fun row => t.venueOrderId = some row.orderId

theorem rowOf_id {rows : List FillRow} {t : MirrorTicketState} {row : FillRow}
    (h : rowOf rows t = some row) : t.venueOrderId = some row.orderId := by
  simpa using List.find?_some h

def Proves (venue : String) (now : Stamp) (rows : List FillRow) (t : MirrorTicketState)
    (c : Collection) : Prop :=
  match rowOf rows t with
  | none => c = ⟨[], []⟩
  | some row => contradicts t row = none ∧ fillOf venue now t row = .ok c.fills ∧
      closeOf venue now t row = .ok c.closes

theorem tallyTicket_ok {venue : String} {now : Stamp} {rows : List FillRow} {acc acc' : Tally}
    {t : MirrorTicketState} (h : tallyTicket venue now rows acc t = .ok acc') :
    (acc'.contradicted = [] → acc.contradicted = [] ∧ ∃ c, Proves venue now rows t c ∧
      acc'.collection = ⟨acc.collection.fills ++ c.fills, acc.collection.closes ++ c.closes⟩) := by
  intro hnone
  unfold tallyTicket at h
  unfold Proves rowOf
  cases hrow : rows.find? fun row => t.venueOrderId = some row.orderId with
  | none =>
      rw [hrow] at h
      cases h
      exact ⟨hnone, ⟨[], []⟩, rfl, by simp⟩
  | some row =>
      rw [hrow] at h
      dsimp only at h ⊢
      split at h
      · cases h
        simp at hnone
      · rename_i hagree
        simp only [bind_eq_ok, pure_eq_ok] at h
        obtain ⟨_, -, fills, hfills, closes, hcloses, rfl⟩ := h
        exact ⟨hnone, ⟨fills, closes⟩, ⟨hagree, hfills, hcloses⟩, rfl⟩

/-- A tally without contradictions is the tickets' own collections, one after the other. -/
theorem tally_ok {venue : String} {now : Stamp} {rows : List FillRow} {ts : List MirrorTicketState}
    {acc : Tally} {c : Collection}
    (h : ts.foldlM (tallyTicket venue now rows) acc = .ok ⟨c, []⟩) :
    acc.contradicted = [] ∧ ∃ cs, List.Forall₂ (Proves venue now rows) ts cs ∧
      c.fills = acc.collection.fills ++ cs.flatMap (·.fills) ∧
      c.closes = acc.collection.closes ++ cs.flatMap (·.closes) := by
  induction ts generalizing acc with
  | nil =>
      cases h
      exact ⟨rfl, [], .nil, by simp, by simp⟩
  | cons t ts ih =>
      simp only [List.foldlM_cons, bind_eq_ok] at h
      obtain ⟨acc', hone, h⟩ := h
      obtain ⟨hnone, cs, hcs, hfills, hcloses⟩ := ih h
      obtain ⟨hnone', c', hc', hacc⟩ := tallyTicket_ok hone hnone
      refine ⟨hnone', c' :: cs, .cons hc' hcs, ?_, ?_⟩
      · rw [hfills, hacc, List.flatMap_cons, List.append_assoc]
      · rw [hcloses, hacc, List.flatMap_cons, List.append_assoc]

theorem tally_nothing {venue : String} {now : Stamp} {rows : List FillRow} {ts : List MirrorTicketState}
    {acc : Tally} (hnow : ∃ stamp, now = .ok stamp)
    (h : ∀ t ∈ ts, ∀ row, rowOf rows t = some row → contradicts t row = none ∧
      fillOf venue now t row = .ok [] ∧ closeOf venue now t row = .ok []) :
    ts.foldlM (tallyTicket venue now rows) acc = .ok acc := by
  obtain ⟨stamp, rfl⟩ := hnow
  induction ts with
  | nil => rfl
  | cons t ts ih =>
      have hone : tallyTicket venue (.ok stamp) rows acc t = .ok acc := by
        unfold tallyTicket
        cases hrow : rows.find? fun row => t.venueOrderId = some row.orderId with
        | none => rfl
        | some row =>
            obtain ⟨hagree, hfill, hclose⟩ := h t List.mem_cons_self row hrow
            simp [hagree, hfill, hclose]
      rw [List.foldlM_cons, hone]
      exact ih fun u hu => h u (List.mem_cons_of_mem _ hu)

theorem fillOf_ok {venue : String} {now : Stamp} {t : MirrorTicketState} {row : FillRow}
    {fs : List MirrorFill} (h : fillOf venue now t row = .ok fs) :
    (row.filled.val ≤ t.filled.val ∧ fs = []) ∨ (t.filled.val < row.filled.val ∧ ∃ price stamp,
      row.avgPrice = some price ∧
      fs = [⟨venue, t.queued.ticketKey, row.orderId, row.filled, price, stamp⟩]) := by
  unfold fillOf at h
  split at h
  · rename_i hgt
    simp only [bind_eq_ok] at h
    obtain ⟨stamp, -, h⟩ := h
    split at h
    · rename_i price hprice
      cases h
      exact Or.inr ⟨by simpa using hgt, price, stamp, hprice, rfl⟩
    · cases h
  · rename_i hle
    cases h
    exact Or.inl ⟨by simpa using hle, rfl⟩

theorem closeOf_ok {venue : String} {now : Stamp} {t : MirrorTicketState} {row : FillRow}
    {as : List MirrorAck} (h : closeOf venue now t row = .ok as) :
    ((ended row.state = true → t.closed = true ∨ t.bookStatus = some row.state) ∧ as = []) ∨
    ∃ a, as = [a] ∧ a.venue = venue ∧ a.ticketKey = t.queued.ticketKey ∧
      a.venueOrderId = some row.orderId ∧ a.bookStatus = some row.state := by
  unfold closeOf at h
  split at h
  · simp only [bind_eq_ok, pure_eq_ok] at h
    obtain ⟨stamp, -, rfl⟩ := h
    exact Or.inr ⟨_, rfl, rfl, rfl, rfl, rfl⟩
  · rename_i hno
    cases h
    refine Or.inl ⟨fun hended => ?_, rfl⟩
    simp only [hended, Bool.true_and, Bool.and_eq_true, Bool.not_eq_true', beq_eq_false_iff_ne, ne_eq,
      not_and, not_not] at hno
    by_cases hclosed : t.closed = true
    · exact Or.inl hclosed
    · exact Or.inr (hno (by simpa using hclosed))

/-- A row that agrees with the mirror: between what is booked and the whole, FILLED only at the whole,
and at the price booked if nothing is new. -/
theorem contradicts_none {t : MirrorTicketState} {row : FillRow} : contradicts t row = none ↔
    (t.filled.val ≤ row.filled.val ∧ row.filled.val ≤ t.queued.quantity.val) ∧
    (row.state = .filled → row.filled.val = t.queued.quantity.val) ∧
    (row.filled.val = t.filled.val → 0 < row.filled.val → row.avgPrice = t.avgPrice) := by
  unfold contradicts
  dsimp only
  split
  · rename_i h
    simp only [Bool.or_eq_true, Money.lt_iff, Money.gt_iff] at h
    simp only [reduceCtorEq, false_iff, not_and]
    intro hle
    rcases h with h | h <;> linarith [hle.1, hle.2]
  · rename_i hwithin
    simp only [Bool.or_eq_true, Money.lt_iff, Money.gt_iff, not_or, not_lt] at hwithin
    split
    · rename_i h
      simp only [Money.ne_iff] at h
      simp only [reduceCtorEq, false_iff, not_and]
      exact fun _ hfull => absurd (hfull h.1) h.2
    · rename_i hfull
      simp only [Money.ne_iff, not_and, not_not] at hfull
      split
      · rename_i h
        simp only [Bool.and_eq_true, Money.eqNum_iff, Money.gt_iff, Money.val_zero, Bool.not_eq_true',
          beq_eq_false_iff_ne] at h
        simp only [reduceCtorEq, false_iff, not_and]
        exact fun _ _ hprice => h.2 (hprice h.1.1 h.1.2)
      · rename_i h
        simp only [Bool.and_eq_true, Money.eqNum_iff, Money.gt_iff, Money.val_zero, Bool.not_eq_true',
          beq_eq_false_iff_ne, not_and, not_not] at h
        simp only [true_iff]
        exact ⟨hwithin, hfull, fun heq hpos => h ⟨heq, hpos⟩⟩

/-! ## Documents -/

/-- A document of a collection. -/
inductive Doc where
  | fill (f : MirrorFill)
  | close (a : MirrorAck)

def Doc.apply (A : Arith) (m : MirrorState) : Doc → R MirrorState
  | .fill f => onMirrorFill A m f
  | .close a => onAck m a

def Collection.docs (c : Collection) : List Doc := c.fills.map .fill ++ c.closes.map .close

def Doc.Apart : Doc → Doc → Prop
  | .fill f, .fill g => f.ticketKey ≠ g.ticketKey
  | _, _ => True

theorem Doc.Apart.symm {d e : Doc} (h : d.Apart e) : e.Apart d := by
  cases d <;> cases e <;> first | exact trivial | exact Ne.symm h

/-- A document says of a ticket of the mirror what the ticket's row says. -/
def Doc.Ready (venue : String) (rows : List FillRow) (m : MirrorState) : Doc → Prop
  | .fill f => f.venue = venue ∧ ∃ t row, m.tickets.get f.ticketKey = some t ∧
      rowOf rows t = some row ∧ f.venueOrderId = row.orderId ∧ f.filled = row.filled ∧
      row.avgPrice = some f.avgPrice ∧ t.filled.val < row.filled.val
  | .close a => a.venue = venue ∧ ∃ t row, m.tickets.get a.ticketKey = some t ∧
      rowOf rows t = some row ∧ a.venueOrderId = some row.orderId ∧ a.bookStatus = some row.state

/-- What a row says of its ticket is booked, or in a document to come. -/
structure Told (todo : List Doc) (key : String) (t : MirrorTicketState) (row : FillRow) : Prop where
  le : row.filled.val ≤ t.queued.quantity.val
  full : row.state = .filled → row.filled.val = t.queued.quantity.val
  filled : (row.filled.val = t.filled.val ∧ (0 < row.filled.val → row.avgPrice = t.avgPrice)) ∨
    ∃ f, Doc.fill f ∈ todo ∧ f.ticketKey = key
  closed : (ended row.state = true → t.closed = true ∨ t.bookStatus = some row.state) ∨
    ∃ a, Doc.close a ∈ todo ∧ a.ticketKey = key

/-- A mirror with the documents still to be applied to it. -/
structure Settling (D : RustDecimal) (venue : String) (rows : List FillRow) (m : MirrorState)
    (todo : List Doc) : Prop where
  ok : m.Ok
  sized : m.Sized
  here : m.venue.getD venue = venue
  ready : ∀ d ∈ todo, d.Ready venue rows m
  apart : todo.Pairwise Doc.Apart
  told : ∀ key t row, m.tickets.get key = some t → rowOf rows t = some row → Told todo key t row
  known : ∀ key t, m.tickets.get key = some t → t.venueOrderId.isSome = true →
    ∃ l, TradeEngine.ticketContracts (.code D) t.queued t.queued.quantity = .ok l

theorem FillRow.filled_whole (row : FillRow) : Whole row.filled.val := Money.val_whole row.whole

/-- What a document leaves of a ticket for the others to find. -/
structure Kept (t t' : MirrorTicketState) : Prop where
  queued : t'.queued = t.queued
  venueOrderId : t'.venueOrderId = t.venueOrderId

theorem Kept.rowOf {t t' : MirrorTicketState} (h : Kept t t') (rows : List FillRow) :
    rowOf rows t' = rowOf rows t := by rw [Tos.rowOf, Tos.rowOf, h.venueOrderId]

namespace Settling

variable {venue : String} {rows : List FillRow} {m : MirrorState} {todo : List Doc}

theorem checkVenue_ok (h : Settling D venue rows m todo) : checkVenue m venue = .ok () := by
  have hvenue := h.here
  unfold checkVenue
  cases hv : m.venue with
  | none => rfl
  | some v =>
      rw [hv, Option.getD_some] at hvenue
      simp [hvenue, refuseIf]

theorem put {d : Doc} {m' : MirrorState} {key : String} {t t' : MirrorTicketState}
    (h : Settling D venue rows m (d :: todo)) (hok : m'.Ok) (hvenue : m'.venue = m.venue)
    (ht : m.tickets.get key = some t) (hm' : m'.tickets = m.tickets.put key t') (hkept : Kept t t')
    (hfills : ∀ f, Doc.fill f ∈ todo → f.ticketKey = key → t'.filled = t.filled)
    (htold : ∀ row, rowOf rows t = some row → Told todo key t' row)
    (hothers : (∀ f, d = .fill f → f.ticketKey = key) ∧ ∀ a, d = .close a → a.ticketKey = key) :
    Settling D venue rows m' todo := by
  have hget : ∀ k, m'.tickets.get k = if k = key then some t' else m.tickets.get k := by
    intro k
    rw [hm', OMap.get_put]
  refine ⟨hok, (sized_put ht hkept.queued hm').mpr h.sized, hvenue ▸ h.here, ?_, (List.pairwise_cons.mp h.apart).2, ?_, ?_⟩
  · intro e he
    have hready := h.ready e (List.mem_cons_of_mem _ he)
    cases e with
    | fill f =>
        obtain ⟨hvf, u, row, hu, hrow, hrest⟩ := hready
        refine ⟨hvf, ?_⟩
        by_cases hk : f.ticketKey = key
        · rw [hk, ht] at hu
          obtain rfl := Option.some.inj hu
          refine ⟨t', row, by rw [hget, if_pos hk], by rw [hkept.rowOf]; exact hrow, ?_⟩
          rw [hfills f he hk]
          exact hrest
        · exact ⟨u, row, by rw [hget, if_neg hk]; exact hu, hrow, hrest⟩
    | close a =>
        obtain ⟨hva, u, row, hu, hrow, hrest⟩ := hready
        refine ⟨hva, ?_⟩
        by_cases hk : a.ticketKey = key
        · rw [hk, ht] at hu
          obtain rfl := Option.some.inj hu
          exact ⟨t', row, by rw [hget, if_pos hk], by rw [hkept.rowOf]; exact hrow, hrest⟩
        · exact ⟨u, row, by rw [hget, if_neg hk]; exact hu, hrow, hrest⟩
  · intro k u row hu hrow
    rw [hget] at hu
    split at hu
    · rename_i hk
      obtain rfl := Option.some.inj hu
      rw [hk]
      exact htold row (by rw [← hkept.rowOf]; exact hrow)
    · rename_i hk
      obtain ⟨hle, hfull, hfilled, hclosed⟩ := h.told k u row hu hrow
      refine ⟨hle, hfull, ?_, ?_⟩
      · rcases hfilled with hfilled | ⟨f, hf, hfk⟩
        · exact Or.inl hfilled
        · rcases List.mem_cons.mp hf with hd | hf
          · exact absurd (hfk.symm.trans (hothers.1 f hd.symm)) hk
          · exact Or.inr ⟨f, hf, hfk⟩
      · rcases hclosed with hclosed | ⟨a, ha, hak⟩
        · exact Or.inl hclosed
        · rcases List.mem_cons.mp ha with hd | ha
          · exact absurd (hak.symm.trans (hothers.2 a hd.symm)) hk
          · exact Or.inr ⟨a, ha, hak⟩
  · intro k u hu hid
    rw [hget] at hu
    split at hu
    · obtain rfl := Option.some.inj hu
      rw [hkept.queued]
      exact h.known key t ht (hkept.venueOrderId ▸ hid)
    · exact h.known k u hu hid

theorem fill {f : MirrorFill} (h : Settling D venue rows m (.fill f :: todo)) :
    ∃ m', onMirrorFill (.code D) m f = .ok m' ∧ Settling D venue rows m' todo := by
  obtain ⟨hvenue, t, row, ht, hrow, hid, hfilled, hprice, hgt⟩ := h.ready _ List.mem_cons_self
  have htold := h.told _ t row ht hrow
  have hwhole : Whole f.filled.val := hfilled ▸ row.filled_whole
  obtain ⟨r, hr⟩ := onMirrorFill_sized (D := D) h.ok h.sized (hvenue ▸ h.checkVenue_ok) ht
    (hid ▸ rowOf_id hrow) hwhole (hfilled ▸ hgt) (hfilled ▸ htold.le)
  have hcode := onMirrorFill_refuses (Arith.exactButDiv_le _) _ _ _ hr
  refine ⟨_, hcode, h.put (onMirrorFill_ok h.ok hwhole hr) rfl ht rfl ⟨rfl, rfl⟩ ?_ ?_ ?_⟩
  · intro g hg hkey
    exact absurd hkey.symm ((List.pairwise_cons.mp h.apart).1 _ hg)
  · intro row' hrow'
    rw [hrow] at hrow'
    obtain rfl := Option.some.inj hrow'
    refine ⟨htold.le, htold.full, Or.inl ⟨by rw [hfilled], fun _ => hprice⟩, ?_⟩
    rcases htold.closed with hclosed | ⟨a, ha, hkey⟩
    · exact Or.inl hclosed
    · exact Or.inr ⟨a, by simpa using ha, hkey⟩
  · exact ⟨fun g hg => by rw [Doc.fill.inj hg], fun a ha => by cases ha⟩

theorem close {a : MirrorAck} (h : Settling D venue rows m (.close a :: todo)) :
    ∃ m', onAck m a = .ok m' ∧ Settling D venue rows m' todo := by
  obtain ⟨hvenue, t, row, ht, hrow, hid, hstatus⟩ := h.ready _ List.mem_cons_self
  have htold := h.told _ t row ht hrow
  have hown := rowOf_id hrow
  have howner : m.orderIds.get row.orderId = some a.ticketKey :=
    (h.ok.orderIds _ _).mpr ⟨t, ht, hown⟩
  have hfound : mirrorTicket m a.ticketKey "MirrorAck" = .ok t := by rw [mirrorTicket, ht]
  have hack : ackOrderId m t a = .ok () := by
    rw [ackOrderId, hid]
    simp [hown, howner, refuseIf]
  have hrun : ∃ m', onAck m a = .ok m' := by
    simp only [onAck, bind_eq_ok]
    exact ⟨_, (), hvenue ▸ h.checkVenue_ok, t, hfound, (), hack, rfl⟩
  obtain ⟨m', hm'⟩ := hrun
  refine ⟨m', hm', ?_⟩
  have hok := onAck_ok h.ok hm'
  simp only [onAck, bind_eq_ok, pure_eq_ok] at hm'
  obtain ⟨_, -, t', ht', _, -, rfl⟩ := hm'
  rw [hfound] at ht'
  obtain rfl := Except.ok.inj ht'
  refine h.put hok rfl ht rfl ⟨rfl, ?_⟩ (fun _ _ _ => rfl) ?_ ?_
  · dsimp only
    rw [hid, hown, Option.some_or]
  · intro row' hrow'
    rw [hrow] at hrow'
    obtain rfl := Option.some.inj hrow'
    refine ⟨htold.le, htold.full, ?_, Or.inl fun _ => Or.inr ?_⟩
    · rcases htold.filled with hfilled | ⟨f, hf, hkey⟩
      · exact Or.inl hfilled
      · exact Or.inr ⟨f, by simpa using hf, hkey⟩
    · dsimp only
      rw [hstatus, Option.some_or]
  · exact ⟨fun f hf => (by cases hf), fun b hb => by rw [Doc.close.inj hb]⟩

theorem run (h : Settling D venue rows m todo) :
    ∃ m', todo.foldlM (Doc.apply (.code D)) m = .ok m' ∧ Settling D venue rows m' [] := by
  induction todo generalizing m with
  | nil => exact ⟨m, rfl, h⟩
  | cons d todo ih =>
      obtain ⟨m₁, hone, h₁⟩ : ∃ m', d.apply (.code D) m = .ok m' ∧ Settling D venue rows m' todo := by
        cases d with
        | fill f => exact h.fill
        | close a => exact h.close
      obtain ⟨m', hrest, h'⟩ := ih h₁
      refine ⟨m', ?_, h'⟩
      rw [List.foldlM_cons, hone]
      exact hrest

end Settling

/-! ## From one read to the next -/

theorem mem_tracked {m : MirrorState} {t : MirrorTicketState} : t ∈ tracked m ↔
    t.venueOrderId.isSome = true ∧ ∃ key, m.tickets.get key = some t := by
  rw [tracked, List.mem_filter, and_comm, List.mem_map]
  refine and_congr_right fun _ => ⟨?_, ?_⟩
  · rintro ⟨e, he, rfl⟩
    obtain ⟨i, hi, rfl⟩ := List.mem_map.mp ((List.perm_insertionSort _ _).mem_iff.mp he)
    exact ⟨i.1, OMap.get_of_mem hi⟩
  · rintro ⟨key, hkey⟩
    obtain ⟨k, hk⟩ := OMap.mem_of_get hkey
    refine ⟨(k, t), (List.perm_insertionSort _ _).mem_iff.mpr ?_, rfl⟩
    exact List.mem_map.mpr ⟨_, hk, rfl⟩

theorem tracked_nodup {m : MirrorState} (h : m.Ok) :
    ((tracked m).map (·.queued.ticketKey)).Nodup := by
  have hkeys : m.tickets.entries.map (fun e => e.2.queued.ticketKey) = m.tickets.items.map (·.1) := by
    rw [OMap.entries, List.map_map]
    exact List.map_congr_left fun e he => (h.tickets _ _ (OMap.get_of_mem he)).key_eq
  have hall : (m.tickets.entries.map fun e => e.2.queued.ticketKey).Nodup := by
    rw [hkeys]
    exact m.tickets.nodup
  rw [tracked]
  refine List.Nodup.sublist (List.filter_sublist.map _) ?_
  rw [List.map_map]
  exact (((List.perm_insertionSort _ _).map _).nodup_iff).mpr hall

theorem contractsOf_ok {qs : List MirrorQueued} : (∃ l, contractsOf A qs = .ok l) ↔
    ∀ q ∈ qs, ∃ l, TradeEngine.ticketContracts A q q.quantity = .ok l := by
  rw [← mapM_ok_iff]
  simp only [contractsOf, bind_eq_ok, pure_eq_ok]
  constructor
  · rintro ⟨_, books, hbooks, rfl⟩
    exact ⟨books, hbooks⟩
  · rintro ⟨books, hbooks⟩
    exact ⟨_, books, hbooks, rfl⟩

section Fold

variable {venue : String} {now : Stamp} {rows : List FillRow} {ts : List MirrorTicketState}
  {cs : List Collection}

theorem Proves.fill_key {t : MirrorTicketState} {c : Collection} (h : Proves venue now rows t c) :
    ∀ f ∈ c.fills, f.ticketKey = t.queued.ticketKey := by
  intro f hf
  unfold Proves at h
  split at h
  · subst h
    cases hf
  · obtain ⟨-, hfill, -⟩ := h
    rcases fillOf_ok hfill with ⟨-, hnil⟩ | ⟨-, price, stamp, -, hone⟩
    · rw [hnil] at hf
      cases hf
    · rw [hone, List.mem_singleton] at hf
      rw [hf]

theorem proves_apart (h : List.Forall₂ (Proves venue now rows) ts cs)
    (hkeys : (ts.map (·.queued.ticketKey)).Nodup) :
    (cs.flatMap (·.fills)).Pairwise fun f g => f.ticketKey ≠ g.ticketKey := by
  induction h with
  | nil => exact .nil
  | @cons t c ts cs hc hcs ih =>
      rw [List.map_cons, List.nodup_cons] at hkeys
      rw [List.flatMap_cons, List.pairwise_append]
      refine ⟨?_, ih hkeys.2, fun f hf g hg heq => hkeys.1 ?_⟩
      · unfold Proves at hc
        split at hc
        · subst hc
          exact .nil
        · rcases fillOf_ok hc.2.1 with ⟨-, hnil⟩ | ⟨-, _, _, -, hone⟩
          · rw [hnil]
            exact .nil
          · rw [hone]
            exact List.pairwise_singleton _ _
      · obtain ⟨c', hc', hg⟩ := List.mem_flatMap.mp hg
        obtain ⟨u, hu, hprove⟩ := forall₂_right hcs c' hc'
        rw [← hc.fill_key f hf, heq, hprove.fill_key g hg]
        exact List.mem_map_of_mem hu

end Fold

theorem Collects.settling {m : MirrorState} {w : World} {rows : List FillRow} {c : Collection}
    {docs : List Doc} (h : Collects (.code D) H m w rows c) (hok : m.Ok) (hs : m.Sized)
    (hdocs : docs.Perm c.docs) : Settling D w.broker.venue rows m docs := by
  obtain ⟨now, -, htally⟩ := h.tally
  obtain ⟨-, cs, hcs, hfills, hcloses⟩ := tally_ok htally
  dsimp only [List.nil_append] at hfills hcloses
  have hmem : ∀ t row, t ∈ tracked m → rowOf rows t = some row →
      ∃ c' : Collection, contradicts t row = none ∧
      fillOf w.broker.venue now t row = .ok c'.fills ∧ closeOf w.broker.venue now t row = .ok c'.closes ∧
      (∀ f ∈ c'.fills, Doc.fill f ∈ docs) ∧ ∀ a ∈ c'.closes, Doc.close a ∈ docs := by
    intro t row ht hrow
    obtain ⟨c', hc', hproves⟩ := forall₂_left hcs t ht
    unfold Proves at hproves
    rw [hrow] at hproves
    obtain ⟨hagree, hf, hc⟩ := hproves
    refine ⟨c', hagree, hf, hc, fun f hf => ?_, fun a ha => ?_⟩
    · refine hdocs.mem_iff.mpr (List.mem_append_left _ (List.mem_map_of_mem ?_))
      rw [hfills]
      exact List.mem_flatMap.mpr ⟨c', hc', hf⟩
    · refine hdocs.mem_iff.mpr (List.mem_append_right _ (List.mem_map_of_mem ?_))
      rw [hcloses]
      exact List.mem_flatMap.mpr ⟨c', hc', ha⟩
  refine ⟨hok, hs, h.venue, ?_, ?_, ?_, ?_⟩
  · intro d hd
    rcases List.mem_append.mp (hdocs.mem_iff.mp hd) with hd | hd
    · obtain ⟨f, hf, rfl⟩ := List.mem_map.mp hd
      rw [hfills] at hf
      obtain ⟨c', hc', hf⟩ := List.mem_flatMap.mp hf
      obtain ⟨t, ht, hproves⟩ := forall₂_right hcs c' hc'
      obtain ⟨-, key, hkey⟩ := mem_tracked.mp ht
      have hown := (hok.tickets key t hkey).key_eq
      unfold Proves at hproves
      split at hproves
      · subst hproves
        cases hf
      · rename_i row hrow
        obtain ⟨-, hfill, -⟩ := hproves
        rcases fillOf_ok hfill with ⟨-, hnil⟩ | ⟨hgt, price, stamp, hprice, hone⟩
        · rw [hnil] at hf
          cases hf
        · rw [hone, List.mem_singleton] at hf
          subst hf
          exact ⟨rfl, t, row, by rw [hown]; exact hkey, hrow, rfl, rfl, hprice, hgt⟩
    · obtain ⟨a, ha, rfl⟩ := List.mem_map.mp hd
      rw [hcloses] at ha
      obtain ⟨c', hc', ha⟩ := List.mem_flatMap.mp ha
      obtain ⟨t, ht, hproves⟩ := forall₂_right hcs c' hc'
      obtain ⟨-, key, hkey⟩ := mem_tracked.mp ht
      have hown := (hok.tickets key t hkey).key_eq
      unfold Proves at hproves
      split at hproves
      · subst hproves
        cases ha
      · rename_i row hrow
        obtain ⟨-, -, hclose⟩ := hproves
        rcases closeOf_ok hclose with ⟨-, hnil⟩ | ⟨b, hone, hvenue, hbkey, hid, hstatus⟩
        · rw [hnil] at ha
          cases ha
        · rw [hone, List.mem_singleton] at ha
          subst ha
          exact ⟨hvenue, t, row, by rw [hbkey, hown]; exact hkey, hrow, hid, hstatus⟩
  · refine (hdocs.pairwise_iff Doc.Apart.symm).mpr ?_
    rw [Collection.docs, List.pairwise_append]
    refine ⟨?_, ?_, ?_⟩
    · rw [hfills, List.pairwise_map]
      exact proves_apart hcs (tracked_nodup hok)
    · rw [List.pairwise_map]
      exact List.pairwise_of_forall fun _ _ => trivial
    · intro d hd e he
      obtain ⟨f, -, rfl⟩ := List.mem_map.mp hd
      obtain ⟨a, -, rfl⟩ := List.mem_map.mp he
      exact trivial
  · intro key t row ht hrow
    have htracked : t ∈ tracked m := mem_tracked.mpr ⟨by rw [rowOf_id hrow]; rfl, key, ht⟩
    have hown := (hok.tickets key t ht).key_eq
    obtain ⟨c', hagree, hfill, hclose, hf, ha⟩ := hmem t row htracked hrow
    obtain ⟨⟨hle, hcap⟩, hfull, hprice⟩ := contradicts_none.mp hagree
    refine ⟨hcap, hfull, ?_, ?_⟩
    · rcases fillOf_ok hfill with ⟨hge, -⟩ | ⟨-, price, stamp, -, hone⟩
      · have heq := le_antisymm hge hle
        exact Or.inl ⟨heq, hprice heq⟩
      · exact Or.inr ⟨_, hf _ (by rw [hone]; exact List.mem_singleton_self _), hown⟩
    · rcases closeOf_ok hclose with ⟨hdone, -⟩ | ⟨b, hone, -, hbkey, -⟩
      · exact Or.inl hdone
      · exact Or.inr ⟨b, ha b (by rw [hone]; exact List.mem_singleton_self _), hbkey.trans hown⟩
  · intro key t ht hid
    exact contractsOf_ok.mp h.contracts _ (List.mem_map_of_mem (mem_tracked.mpr ⟨hid, key, ht⟩))

section Settled

variable {venue : String} {rows : List FillRow} {m : MirrorState}

theorem Settling.filled_eq (h : Settling D venue rows m []) {key : String} {t : MirrorTicketState}
    {row : FillRow} (ht : m.tickets.get key = some t) (hrow : rowOf rows t = some row) :
    t.filled = row.filled := by
  rcases (h.told key t row ht hrow).filled with ⟨heq, -⟩ | ⟨f, hf, -⟩
  · exact Money.val_injective heq.symm
  · cases hf

theorem Settling.collects (h : Settling D venue rows m []) {w : World}
    (hconn : w.broker.connected = true) (hvenue : w.broker.venue = venue)
    (hable : H.canReadFills w.tick = .ok true) (hnow : ∃ stamp, H.now (w.tick + 1) = .ok (.ok stamp))
    (hread : fillsAt H (w.tick + 2) = .ok rows) (honce : twice rows [] = none) :
    Collects (.code D) H m w rows ⟨[], []⟩ := by
  obtain ⟨stamp, hnow⟩ := hnow
  subst hvenue
  refine ⟨hconn, h.here, hable, hread, ?_, honce, .ok stamp, hnow, tally_nothing ⟨stamp, rfl⟩ ?_⟩
  · rw [contractsOf_ok]
    intro q hq
    obtain ⟨t, ht, rfl⟩ := List.mem_map.mp hq
    obtain ⟨hid, key, hkey⟩ := mem_tracked.mp ht
    exact h.known key t hkey hid
  · intro t ht row hrow
    obtain ⟨-, key, hkey⟩ := mem_tracked.mp ht
    obtain ⟨hle, hfull, hfilled, hclosed⟩ := h.told key t row hkey hrow
    obtain ⟨heq, hprice⟩ := hfilled.resolve_right (by simp)
    have hended := hclosed.resolve_right (by simp)
    refine ⟨contradicts_none.mpr ⟨⟨heq.ge, hle⟩, hfull, fun _ => hprice⟩, ?_, ?_⟩
    · rw [fillOf, if_neg (by simpa using heq.le)]
      rfl
    · rw [closeOf, if_neg ?_]
      · rfl
      · simp only [Bool.and_eq_true, Bool.not_eq_true', beq_eq_false_iff_ne, ne_eq, not_and, not_not]
        intro ⟨he, hopen⟩
        rcases hended he with hclosed | hstatus
        · rw [hclosed] at hopen
          cases hopen
        · exact hstatus

end Settled

end TradeEngine.Tos
