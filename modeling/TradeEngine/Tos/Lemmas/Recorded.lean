import TradeEngine.Ledger.Lemmas.Expected
import TradeEngine.Tos.Lemmas.Calls
import TradeEngine.Tos.Session

/-!
# What a session records

The ledger only grows, a ticket it records stays with its contents, and a strategy order is indexed
under one ticket. A command id under a queued suffix is a queued ticket's, so a ticket the ledger does
not have is stored as it was queued.
-/

namespace TradeEngine.Tos.Session

open Lib

variable {A : Arith} {venue : String}

/-! ## The tickets of the fold -/

/-- A strategy order is indexed under the ticket that carries it. -/
def Owned (m : MirrorState) : Prop :=
  ∀ key t, m.tickets.get key = some t → ∀ a ∈ t.queued.allocations,
    m.queuedOrders.get a.strategyOrderId = some key

/-- The tickets stay, with the contents they were queued with. -/
def Keeps (m m' : MirrorState) : Prop :=
  ∀ key t, m.tickets.get key = some t → ∃ t', m'.tickets.get key = some t' ∧ t'.queued = t.queued

def Recorded (m : MirrorState) (q : MirrorQueued) : Prop :=
  ∃ t, m.tickets.get q.ticketKey = some t ∧ t.queued.allocations = q.allocations

theorem Keeps.refl (m : MirrorState) : Keeps m m := fun _ t ht => ⟨t, ht, rfl⟩

theorem Recorded.kept {m m' : MirrorState} {q : MirrorQueued} (h : Recorded m q) (hk : Keeps m m') :
    Recorded m' q := by
  obtain ⟨t, ht, hq⟩ := h
  obtain ⟨t', ht', hq'⟩ := hk _ t ht
  exact ⟨t', ht', by rw [hq', hq]⟩

section Steps

variable {m m' : MirrorState}

theorem Owned.back {key : String} {t t' : MirrorTicketState} (hm : Owned m)
    (ht : m.tickets.get key = some t) (hq : t'.queued = t.queued)
    (htickets : m'.tickets = m.tickets.put key t') (horders : m'.queuedOrders = m.queuedOrders) :
    Owned m' ∧ Keeps m m' := by
  constructor
  · intro k u hu a ha
    rw [htickets, OMap.get_put] at hu
    rw [horders]
    split at hu
    · cases hu
      rw [hq] at ha
      exact ‹k = key› ▸ hm key t ht a ha
    · exact hm k u hu a ha
  · intro k u hu
    rw [htickets, OMap.get_put]
    split
    · rename_i hk
      rw [hk, ht] at hu
      cases hu
      exact ⟨t', rfl, hq⟩
    · exact ⟨u, hu, rfl⟩

theorem onQueued_owned {q : MirrorQueued} (h : onQueued m q = .ok m') (hm : Owned m) :
    (Owned m' ∧ Keeps m m') ∧ Recorded m' q := by
  simp only [onQueued, bind_eq_ok] at h
  obtain ⟨_, -, h⟩ := h
  split at h
  · rename_i t ht
    simp only [bind_eq_ok, pure_eq_ok, refuseIf_eq_ok] at h
    obtain ⟨_, hsame, rfl⟩ := h
    refine ⟨⟨hm, .refl m⟩, t, ht, ?_⟩
    simp only [MirrorQueued.same, Bool.not_eq_true', Bool.not_eq_false, Bool.and_eq_true, beq_iff_eq] at hsame
    exact hsame.1.2
  · rename_i hnone
    simp only [bind_eq_ok, pure_eq_ok] at h
    obtain ⟨_, hcheck, rfl⟩ := h
    have hfresh : ∀ a ∈ q.allocations, m.queuedOrders.get a.strategyOrderId = none := by
      intro a ha
      have hone := forM_ok hcheck a ha
      unfold checkAllocation at hone
      split at hone
      · cases hone
      · assumption
    refine ⟨⟨fun key t ht a ha => ?_, fun key t ht => ?_⟩, .new q, ?_, rfl⟩
    · dsimp only at ht ⊢
      rw [foldl_put_get]
      rw [OMap.get_put] at ht
      split at ht
      · rename_i hkey
        cases ht
        have hmem : a.strategyOrderId ∈ q.allocations.map (·.strategyOrderId) := List.mem_map_of_mem ha
        rw [if_pos hmem, hkey]
      · -- an earlier ticket's strategy order is none of the new ticket's
        have hold := hm key t ht a ha
        rw [if_neg, hold]
        intro hmem
        obtain ⟨b, hb, hid⟩ := List.mem_map.mp hmem
        have hnew := hfresh b hb
        rw [hid, hold] at hnew
        cases hnew
    · refine ⟨t, ?_, rfl⟩
      dsimp only
      rw [OMap.get_put, if_neg]
      · exact ht
      · rintro rfl
        rw [hnone] at ht
        cases ht
    · dsimp only
      rw [OMap.get_put, if_pos rfl]

theorem onRefused_owned {r : MirrorRefused} (h : onRefused m r = .ok m') (hm : Owned m) :
    Owned m' ∧ Keeps m m' := by
  simp only [onRefused, bind_eq_ok] at h
  obtain ⟨_, -, h⟩ := h
  split at h
  · cases h
  · split at h <;> cases h
    · exact ⟨hm, .refl m⟩
    · exact ⟨hm, .refl m⟩

theorem onAck_owned {a : MirrorAck} (h : onAck m a = .ok m') (hm : Owned m) : Owned m' ∧ Keeps m m' := by
  simp only [onAck, bind_eq_ok, pure_eq_ok] at h
  obtain ⟨_, -, t, ht, _, -, rfl⟩ := h
  exact hm.back (mirrorTicket_ok ht) (by exact rfl) rfl rfl

theorem onMirrorFill_owned {f : MirrorFill} (h : onMirrorFill A m f = .ok m') (hm : Owned m) :
    Owned m' ∧ Keeps m m' := by
  simp only [onMirrorFill, bind_eq_ok] at h
  obtain ⟨_, -, t, ht, _, -, _, -, _, -, h⟩ := h
  split at h
  · simp only [bind_eq_ok, pure_eq_ok] at h
    obtain ⟨_, -, rfl⟩ := h
    exact ⟨hm, .refl m⟩
  · simp only [bind_eq_ok, pure_eq_ok] at h
    obtain ⟨_, -, _, -, _, -, _, -, ab, -, rfl⟩ := h
    exact hm.back (mirrorTicket_ok ht) (by exact rfl) rfl rfl

end Steps

theorem applyEvent_owned {st st' : AccountState} {e : Event} (h : applyEvent A st e = .ok st')
    (hm : Owned st.mirror) : (Owned st'.mirror ∧ Keeps st.mirror st'.mirror) ∧
      ∀ q, e.payload = .mQueued q → Recorded st'.mirror q := by
  have hpayload : ∀ {o : Obj}, e.payload = o → (∀ q, o ≠ .mQueued q) →
      ∀ q, e.payload = .mQueued q → Recorded st'.mirror q := by
    intro o ho hne q hq
    exact absurd (ho.symm.trans hq) (hne q)
  simp only [applyEvent, bind_eq_ok, pure_eq_ok] at h
  obtain ⟨st₁, h, rfl⟩ := h
  by_cases hq : ∃ q, e.payload = .mQueued q
  · obtain ⟨q, hq⟩ := hq
    have hstep : onQueued st.mirror q = .ok st₁.mirror := by
      simp only [dispatch, hq, mirrorStep] at h
      split at h
      · cases h
        assumption
      · split at h <;> cases h
    obtain ⟨hkeep, hrec⟩ := onQueued_owned hstep hm
    refine ⟨hkeep, fun q' hq' => ?_⟩
    cases hq.symm.trans hq'
    exact hrec
  · refine ⟨?_, fun q hq' => absurd ⟨q, hq'⟩ hq⟩
    rcases dispatch_mirror h with h | ⟨q, hq', -⟩ | ⟨r, -, h⟩ | ⟨a, -, h⟩ | ⟨f, -, h⟩
    · dsimp only
      rw [h]
      exact ⟨hm, .refl _⟩
    · exact absurd ⟨q, hq'⟩ hq
    · exact onRefused_owned h hm
    · exact onAck_owned h hm
    · exact onMirrorFill_owned h hm

/-! ## The ledger -/

/-- An item goes under a queued suffix exactly where it queues that ticket. -/
def Named (item : Obj × String) : Prop :=
  ∀ key, item.2 = "queued:" ++ key ↔ ∃ q, item.1 = .mQueued q ∧ q.ticketKey = key

theorem commandOf_inj {suffix suffix' : String} (h : commandOf venue suffix = commandOf venue suffix') :
    suffix = suffix' := by
  unfold commandOf at h
  exact String.append_right_inj _ |>.mp h

/-- What stands under a command id of the session's is an item of the venue's account. -/
def Filed (venue : String) (e : Event) : Prop :=
  ∀ suffix, e.commandId = some (commandOf venue suffix) →
    e.account = accountFor venue ∧ Named (e.payload, suffix)

structure Ledger.Ok (venue : String) (l : Ledger) : Prop where
  owned : Owned (l.mirror venue)
  keyed : TicketKeyed (l.mirror venue)
  recorded : ∀ e ∈ l.rows, e.account = accountFor venue → ∀ q, e.payload = .mQueued q →
    Recorded (l.mirror venue) q
  filed : ∀ e ∈ l.rows, Filed venue e

/-- The ledger only grows, and the venue's tickets stay. -/
structure Grows (venue : String) (l l' : Ledger) : Prop where
  rows : l.rows <+: l'.rows
  keeps : Keeps (l.mirror venue) (l'.mirror venue)

theorem Keeps.trans {m m' m'' : MirrorState} (h : Keeps m m') (h' : Keeps m' m'') : Keeps m m'' := by
  intro key t ht
  obtain ⟨u, hu, hq⟩ := h key t ht
  obtain ⟨v, hv, hq'⟩ := h' key u hu
  exact ⟨v, hv, hq'.trans hq⟩

theorem Grows.refl (l : Ledger) : Grows venue l l := ⟨List.prefix_rfl, .refl _⟩

theorem Grows.trans {l l' l'' : Ledger} (h : Grows venue l l') (h' : Grows venue l' l'') : Grows venue l l'' :=
  ⟨h.rows.trans h'.rows, h.keeps.trans h'.keeps⟩

/-- The event is new to the ledger, and is stored as `row`. -/
structure Stores (A : Arith) (l l' : Ledger) (e row : Event) : Prop where
  fresh : ∀ c, e.commandId = some c → ∀ r ∈ l.rows, r.commandId ≠ some c
  payload : row.payload = e.payload
  command : row.commandId = e.commandId
  account : row.account = e.account
  rows : l'.rows = l.rows ++ [row]
  applied : applyEvent A (l.stateOf row.account) row = .ok (l'.stateOf row.account)
  others : ∀ account, account ≠ row.account → l'.states.get account = l.states.get account
  known : l'.states.get row.account = some (l'.stateOf row.account)

/-- What one event of a transaction does: the event stored under its command id is replayed, or it is
folded and stored. -/
theorem write_ok {acc acc' : Ledger × List Obj} {e : Event} (h : Ledger.write A acc e = .ok acc') :
    ((∃ c, e.commandId = some c ∧ ∃ r ∈ acc.1.rows, r.commandId = some c) ∧
      (acc.1.stored e.commandId).isSome = true ∧ acc'.1 = acc.1) ∨
    ∃ row, Stores A acc.1 acc'.1 e row := by
  unfold Ledger.write at h
  split at h
  · rename_i row hrow
    cases h
    refine .inl ⟨?_, by rw [hrow]; rfl, rfl⟩
    simp only [Ledger.stored, Option.bind_eq_some_iff] at hrow
    obtain ⟨c, hc, hfind⟩ := hrow
    exact ⟨c, hc, row, List.mem_of_find?_eq_some hfind, by simpa using List.find?_some hfind⟩
  · rename_i hnone
    simp only [bind_eq_ok, pure_eq_ok] at h
    obtain ⟨row, hrow, state, hstate, rfl⟩ := h
    have hfields := makeEvent_fields hrow
    have hget : (acc.1.states.put row.account state).get row.account = some state := by simp
    refine .inr ⟨row, ?_⟩
    constructor
    case fresh =>
      intro c hc r hr
      simp only [Ledger.stored, hc, Option.bind_some] at hnone
      simpa using List.find?_eq_none.mp hnone r hr
    case payload => rw [hfields]
    case command => rw [hfields]
    case account => rw [hfields]
    case rows => rfl
    case applied =>
      simp only [Ledger.stateOf, hget, Option.getD_some]
      exact hstate
    case others =>
      intro account haccount
      exact OMap.get_put_ne _ _ haccount
    case known =>
      simp only [Ledger.stateOf, hget, Option.getD_some]

theorem Stores.mirror_other {l l' : Ledger} {e row : Event} (h : Stores A l l' e row)
    (haccount : row.account ≠ accountFor venue) : l'.mirror venue = l.mirror venue := by
  simp only [Ledger.mirror, Ledger.stateOf, h.others _ (Ne.symm haccount)]

theorem write_grows {acc acc' : Ledger × List Obj} {e : Event} (h : Ledger.write A acc e = .ok acc')
    (hl : acc.1.Ok venue) (he : Filed venue e) : acc'.1.Ok venue ∧ Grows venue acc.1 acc'.1 := by
  rcases write_ok h with ⟨-, -, hsame⟩ | ⟨row, hrow⟩
  · rw [hsame]
    exact ⟨hl, .refl _⟩
  · have hfiled : Filed venue row := by
      unfold Filed
      rw [hrow.payload, hrow.command, hrow.account]
      exact he
    have hfiledAll : ∀ r ∈ acc'.1.rows, Filed venue r := by
      intro r hr
      rw [hrow.rows] at hr
      rcases List.mem_append.mp hr with hr | hr
      · exact hl.filed r hr
      · rw [List.mem_singleton.mp hr]
        exact hfiled
    have hrows : acc.1.rows <+: acc'.1.rows := hrow.rows ▸ List.prefix_append _ _
    by_cases haccount : row.account = accountFor venue
    · have happlied := hrow.applied
      rw [haccount] at happlied
      obtain ⟨⟨howned, hkeeps⟩, hrecorded⟩ := applyEvent_owned happlied hl.owned
      have hone : [row].foldlM (applyEvent A) (acc.1.stateOf (accountFor venue)) =
          .ok (acc'.1.stateOf (accountFor venue)) := by simpa using happlied
      refine ⟨⟨howned, run_ticketKeyed hone hl.keyed, fun r hr hra q hq => ?_, hfiledAll⟩, hrows, hkeeps⟩
      rw [hrow.rows] at hr
      rcases List.mem_append.mp hr with hr | hr
      · exact (hl.recorded r hr hra q hq).kept hkeeps
      · rw [List.mem_singleton.mp hr] at hq
        exact hrecorded q hq
    · have hmirror := hrow.mirror_other haccount
      refine ⟨⟨hmirror ▸ hl.owned, hmirror ▸ hl.keyed, fun r hr hra q hq => ?_, hfiledAll⟩, hrows,
        hmirror ▸ .refl _⟩
      rw [hrow.rows] at hr
      rcases List.mem_append.mp hr with hr | hr
      · exact hmirror ▸ hl.recorded r hr hra q hq
      · rw [List.mem_singleton.mp hr] at hra
        exact absurd hra haccount

def Committed (A : Arith) (events : List Event) (l l' : Ledger) : Prop :=
  ∃ before after, events.foldlM (Ledger.write A) (l, before) = .ok (l', after)

theorem Committed.grows {events : List Event} {l l' : Ledger} (h : Committed A events l l')
    (hl : l.Ok venue) (hevents : ∀ e ∈ events, Filed venue e) : l'.Ok venue ∧ Grows venue l l' := by
  obtain ⟨before, after, h⟩ := h
  refine foldlM_invariant (P := fun acc : Ledger × List Obj => acc.1.Ok venue ∧ Grows venue l acc.1)
    (fun acc e acc' he hone hacc => ?_) h ⟨hl, .refl l⟩
  obtain ⟨hok, hgrows⟩ := write_grows hone hacc.1 (hevents e he)
  exact ⟨hok, hacc.2.trans hgrows⟩

/-- A new event of a committed transaction is stored, if nothing before it has its command id. -/
theorem Committed.stored {before after : List Event} {e : Event} {l l' : Ledger} {c : String}
    (h : Committed A (before ++ e :: after) l l') (hc : e.commandId = some c)
    (hold : ∀ r ∈ l.rows, r.commandId ≠ some c) (hbefore : ∀ r ∈ before, r.commandId ≠ some c) :
    ∃ row ∈ l'.rows, row.payload = e.payload ∧ row.account = e.account := by
  obtain ⟨start, final, h⟩ := h
  rw [List.foldlM_append, bind_eq_ok] at h
  obtain ⟨mid, hmid, h⟩ := h
  rw [List.foldlM_cons, bind_eq_ok] at h
  obtain ⟨mid', hone, h⟩ := h
  have hgrow : ∀ {acc acc' : Ledger × List Obj} {r : Event}, Ledger.write A acc r = .ok acc' →
      acc.1.rows ⊆ acc'.1.rows := by
    intro acc acc' r hr
    rcases write_ok hr with ⟨-, -, hsame⟩ | ⟨row, hrow⟩
    · rw [hsame]
      exact List.Subset.refl _
    · rw [hrow.rows]
      exact List.subset_append_left _ _
  have hnew : ∀ r ∈ mid.1.rows, r.commandId ≠ some c := by
    refine foldlM_invariant (P := fun acc : Ledger × List Obj => ∀ r ∈ acc.1.rows, r.commandId ≠ some c)
      (fun acc b acc' hb hstep hacc => ?_) hmid hold
    rcases write_ok hstep with ⟨-, -, hsame⟩ | ⟨row, hrow⟩
    · rw [hsame]
      exact hacc
    · rw [hrow.rows]
      intro r hr
      rcases List.mem_append.mp hr with hr | hr
      · exact hacc r hr
      · rw [List.mem_singleton.mp hr, hrow.command]
        exact hbefore b hb
  rcases write_ok hone with ⟨⟨c', hc', r, hr, hrc⟩, -, -⟩ | ⟨row, hrow⟩
  · rw [hc] at hc'
    cases hc'
    exact absurd hrc (hnew r hr)
  · have hlast : mid'.1.rows ⊆ l'.rows :=
      foldlM_invariant (P := fun acc : Ledger × List Obj => mid'.1.rows ⊆ acc.1.rows)
        (fun acc b acc' _ hstep hacc => List.Subset.trans hacc (hgrow hstep)) h (List.Subset.refl _)
    exact ⟨row, hlast (by rw [hrow.rows]; simp), hrow.payload, hrow.account⟩

/-! ## Items -/

theorem named_queued (q : MirrorQueued) : Named (.mQueued q, s!"queued:{q.ticketKey}") := by
  intro key
  constructor
  · intro h
    exact ⟨q, rfl, String.append_right_inj _ |>.mp h⟩
  · rintro ⟨q', hq, rfl⟩
    cases hq
    rfl

theorem named_other {o : Obj} {suffix : String} {c : Char} (ho : ∀ q, o ≠ .mQueued q)
    (hsuffix : suffix.toList.head? = some c) (hc : c ≠ 'q') : Named (o, suffix) := by
  intro key
  constructor
  · intro h
    dsimp only at h
    rw [h, String.toList_append] at hsuffix
    exact absurd (Option.some.inj hsuffix).symm hc
  · rintro ⟨q, hq, -⟩
    exact absurd hq (ho q)

theorem named_fill (f : MirrorFill) : Named (fillItem f) :=
  named_other (c := 'f') (by simp) (by simp [String.toList_append, toString]) (by decide)

theorem named_close (a : MirrorAck) : Named (closeItem a) :=
  named_other (c := 'b') (by simp) (by simp [String.toList_append, toString]) (by decide)

theorem named_ack {proven : List (String × String × OrderState)} (a : Ack) : Named (ackItem venue proven a) :=
  named_other (c := 'a') (by simp) (by simp [String.toList_append, toString]) (by decide)

theorem named_reconcile {digest : VenueReconcile → String} (event : VenueReconcile) (phase : String) :
    Named (.reconcile event, reconcileSuffix digest event phase) :=
  named_other (c := 'r') (by simp) (by simp [reconcileSuffix, String.toList_append, toString]) (by decide)

theorem named_cancel (a : MirrorAck) (key : String) : Named (.mAck a, s!"cancel:{key}") :=
  named_other (c := 'c') (by simp) (by simp [String.toList_append, toString]) (by decide)

theorem refusedAt_named {id account reason : String} {now : Stamp} {item : Obj × String}
    (h : refusedAt venue id account reason now = .ok item) : Named item ∧ ∃ r, item.1 = .mRefused r := by
  simp only [refusedAt, bind_eq_ok, pure_eq_ok] at h
  obtain ⟨t, -, rfl⟩ := h
  exact ⟨named_other (c := 'r') (by simp) (by simp [String.toList_append, toString]) (by decide), _, rfl⟩

theorem refusal_named {orders : List Order} {now : Stamp} {r : String × String} {item : Obj × String}
    (h : refusal venue orders now r = .ok item) : Named item ∧ ∃ r, item.1 = .mRefused r := by
  simp only [refusal, bind_eq_ok] at h
  obtain ⟨account, -, h⟩ := h
  exact refusedAt_named h

theorem queued_ok {t : Ticket} {q : MirrorQueued} (h : queued venue t = .ok q) :
    q.ticketKey = t.venueOrderId ∧
      ∀ a ∈ t.allocations, ∃ b ∈ q.allocations, b.strategyOrderId = a.strategyOrderId := by
  simp only [queued, bind_eq_ok, pure_eq_ok] at h
  obtain ⟨allocations, hall, rfl⟩ := h
  refine ⟨rfl, fun a ha => ?_⟩
  obtain ⟨b, hb, hab⟩ := forall₂_left (mapM_ok hall) a ha
  simp only [mirrorAllocation, bind_eq_ok] at hab
  obtain ⟨_, -, _, -, hab⟩ := hab
  split at hab <;> cases hab
  exact ⟨_, hb, rfl⟩

/-- An item of a batch queues a ticket or refuses an order. -/
def Prepares (item : Obj × String) : Prop := (∃ q, item.1 = .mQueued q) ∨ ∃ r, item.1 = .mRefused r

theorem not_queued {o : Obj} (h : ∃ r, o = .mRefused r) (q : MirrorQueued) : o ≠ .mQueued q := by
  obtain ⟨r, rfl⟩ := h
  simp

theorem ticketItems_ok {now : Stamp} {keys : List String} {t : Ticket} {items : List (Obj × String)}
    (h : ticketItems venue now keys t = .ok items) :
    (∀ i ∈ items, Named i ∧ Prepares i ∧ ∀ q, i.1 = .mQueued q → q.ticketKey = t.venueOrderId) ∧
      (t.venueOrderId ∈ keys → ∃ q, queued venue t = .ok q ∧
        items = [(.mQueued q, s!"queued:{q.ticketKey}")]) := by
  unfold ticketItems at h
  split at h
  · simp only [bind_eq_ok, pure_eq_ok] at h
    obtain ⟨q, hq, rfl⟩ := h
    have hkey := (queued_ok hq).1
    rw [← hkey]
    refine ⟨fun i hi => ?_, fun _ => ⟨q, hq, rfl⟩⟩
    rw [List.mem_singleton.mp hi]
    refine ⟨named_queued q, .inl ⟨q, rfl⟩, fun q' hq' => ?_⟩
    cases hq'
    rfl
  · rename_i hmem
    refine ⟨fun i hi => ?_, fun hkey => absurd hkey hmem⟩
    obtain ⟨a, -, ha⟩ := forall₂_right (mapM_ok h) i hi
    obtain ⟨hnamed, hrefused⟩ := refusedAt_named ha
    exact ⟨hnamed, .inr hrefused, fun q hq => absurd hq (not_queued hrefused q)⟩

/-- What is written ahead of a drain: every item named, and the first ticket of the batch under a
queued key with nothing before it that queues the key. -/
theorem batchItems_ok {orders : List Order} {now : Stamp} {coverRefused : List (String × String)}
    {batch : Batch} {keys : List String} {items : List (Obj × String)}
    (h : batchItems venue orders now coverRefused batch keys = .ok items) :
    (∀ i ∈ items, Named i ∧ Prepares i) ∧ ∀ t, t.venueOrderId ∈ keys → First batch.venueOrders t →
      ∃ q before after, queued venue t = .ok q ∧
        items = before ++ (.mQueued q, s!"queued:{q.ticketKey}") :: after ∧
        ∀ i ∈ before, ∀ q', i.1 = .mQueued q' → q'.ticketKey ≠ q.ticketKey := by
  simp only [batchItems, bind_eq_ok, pure_eq_ok] at h
  obtain ⟨refusals, hrefusals, tickets, htickets, rfl⟩ := h
  have hrefusal : ∀ i ∈ refusals, Named i ∧ ∃ r, i.1 = .mRefused r := by
    intro i hi
    obtain ⟨r, -, hr⟩ := forall₂_right (mapM_ok hrefusals) i hi
    exact refusal_named hr
  constructor
  · intro i hi
    rcases List.mem_append.mp hi with hi | hi
    · exact ⟨(hrefusal i hi).1, .inr (hrefusal i hi).2⟩
    · obtain ⟨l, hl, hil⟩ := List.mem_flatten.mp hi
      obtain ⟨t, -, ht⟩ := forall₂_right (mapM_ok htickets) l hl
      exact ⟨((ticketItems_ok ht).1 i hil).1, ((ticketItems_ok ht).1 i hil).2.1⟩
  · rintro t hkey ⟨before, after, hbatch, hfirst⟩
    rw [hbatch, List.mapM_append] at htickets
    simp only [List.mapM_cons, bind_eq_ok, pure_eq_ok] at htickets
    obtain ⟨befores, hbefores, _, ⟨own, hown, afters, -, rfl⟩, rfl⟩ := htickets
    obtain ⟨q, hq, rfl⟩ := (ticketItems_ok hown).2 hkey
    refine ⟨q, refusals ++ befores.flatten, afters.flatten, hq, by simp, fun i hi q' hq' => ?_⟩
    rcases List.mem_append.mp hi with hi | hi
    · exact absurd hq' (not_queued (hrefusal i hi).2 q')
    · obtain ⟨l, hl, hil⟩ := List.mem_flatten.mp hi
      obtain ⟨u, hu, hlu⟩ := forall₂_right (mapM_ok hbefores) l hl
      rw [((ticketItems_ok hlu).1 i hil).2.2 q' hq', (queued_ok hq).1]
      exact hfirst u hu

/-! ## Halted venues -/

theorem mem_halted {l : Ledger} {v : String} :
    v ∈ l.halted ↔ ∃ account st, l.states.get account = some st ∧ v ∈ st.haltedVenues := by
  simp only [Ledger.halted, List.mem_flatMap, OMap.entries, List.mem_map]
  constructor
  · rintro ⟨e, ⟨item, hitem, rfl⟩, hv⟩
    exact ⟨item.1, item.2.2, OMap.get_of_mem hitem, hv⟩
  · rintro ⟨account, st, hst, hv⟩
    obtain ⟨k, hmem⟩ := OMap.mem_of_get hst
    exact ⟨(k, st), ⟨_, hmem, rfl⟩, hv⟩

theorem Stores.halted_iff {l l' : Ledger} {e row : Event} (h : Stores A l l' e row)
    (hsame : (l'.stateOf row.account).haltedVenues = (l.stateOf row.account).haltedVenues) (v : String) :
    v ∈ l'.halted ↔ v ∈ l.halted := by
  rw [mem_halted, mem_halted]
  constructor
  · rintro ⟨account, st, hst, hv⟩
    by_cases haccount : account = row.account
    · rw [haccount, h.known] at hst
      cases hst
      rw [hsame] at hv
      cases hget : l.states.get row.account with
      | none => simp [Ledger.stateOf, hget, AccountState.new] at hv
      | some st => exact ⟨row.account, st, hget, by simpa [Ledger.stateOf, hget] using hv⟩
    · rw [h.others account haccount] at hst
      exact ⟨account, st, hst, hv⟩
  · rintro ⟨account, st, hst, hv⟩
    by_cases haccount : account = row.account
    · refine ⟨row.account, _, h.known, ?_⟩
      rw [hsame]
      simpa [Ledger.stateOf, ← haccount, hst] using hv
    · exact ⟨account, st, by rw [h.others account haccount, hst], hv⟩

theorem Stores.halts {l l' : Ledger} {e row : Event} (h : Stores A l l' e row) {v : String}
    (hv : v ∈ (l'.stateOf row.account).haltedVenues) : v ∈ l'.halted :=
  mem_halted.mpr ⟨row.account, _, h.known, hv⟩

theorem mirrorStep_halted {st st' : AccountState} {kind : EventKind} {step : MirrorState → R MirrorState}
    (h : mirrorStep st kind step = .ok st') :
    st'.haltedVenues = st.haltedVenues ∧ step st.mirror = .ok st'.mirror := by
  unfold mirrorStep at h
  split at h
  · rename_i hstep
    cases h
    exact ⟨rfl, hstep⟩
  · split at h <;> cases h

/-- What queues a ticket or refuses an order halts nothing and changes no ticket that is there. -/
theorem applyEvent_prepares {st st' : AccountState} {e : Event} {suffix : String}
    (h : applyEvent A st e = .ok st') (he : Prepares (e.payload, suffix)) :
    st'.haltedVenues = st.haltedVenues ∧
      ∀ key t, st.mirror.tickets.get key = some t → st'.mirror.tickets.get key = some t := by
  simp only [applyEvent, bind_eq_ok, pure_eq_ok] at h
  obtain ⟨st₁, h, rfl⟩ := h
  rcases he with ⟨q, hq⟩ | ⟨r, hr⟩
  · dsimp only at hq
    simp only [dispatch, hq] at h
    obtain ⟨hhalted, hstep⟩ := mirrorStep_halted h
    refine ⟨hhalted, fun key t ht => ?_⟩
    simp only [onQueued, bind_eq_ok] at hstep
    obtain ⟨_, -, hstep⟩ := hstep
    split at hstep
    · simp only [bind_eq_ok, pure_eq_ok] at hstep
      obtain ⟨_, -, hsame⟩ := hstep
      rw [← hsame]
      exact ht
    · rename_i hnone
      simp only [bind_eq_ok, pure_eq_ok] at hstep
      obtain ⟨_, -, hnew⟩ := hstep
      rw [← hnew]
      dsimp only
      rw [OMap.get_put, if_neg]
      · exact ht
      · rintro rfl
        rw [hnone] at ht
        cases ht
  · dsimp only at hr
    simp only [dispatch, hr] at h
    obtain ⟨hhalted, hstep⟩ := mirrorStep_halted h
    refine ⟨hhalted, fun key t ht => ?_⟩
    simp only [onRefused, bind_eq_ok] at hstep
    obtain ⟨_, -, hstep⟩ := hstep
    split at hstep
    · cases hstep
    · split at hstep
      all_goals
        rw [pure_eq_ok] at hstep
        rw [← hstep]
        exact ht

/-! ## Appends -/

def Books (A : Arith) (venue : String) (items : List (Obj × String)) (l l' : Ledger) : Prop :=
  ∃ now events, items.mapM (eventOf venue now) = .ok events ∧ Committed A events l l'

theorem eventOf_ok {now : Stamp} {item : Obj × String} {e : Event} (h : eventOf venue now item = .ok e) :
    e.payload = item.1 ∧ e.commandId = some (commandOf venue item.2) ∧ e.account = accountFor venue := by
  simp only [eventOf, bind_eq_ok] at h
  obtain ⟨account, haccount, kind, -, aware, -, time, -, h⟩ := h
  have hfields := makeEvent_fields h
  rw [hfields]
  refine ⟨rfl, rfl, ?_⟩
  unfold mirrorAccount at haccount
  split at haccount <;> cases haccount
  rfl

theorem eventOf_filed {now : Stamp} {item : Obj × String} {e : Event} (h : eventOf venue now item = .ok e)
    (hitem : Named item) : Filed venue e := by
  obtain ⟨hpayload, hcommand, haccount⟩ := eventOf_ok h
  intro suffix hsuffix
  rw [hcommand] at hsuffix
  rw [hpayload, ← commandOf_inj (Option.some.inj hsuffix)]
  exact ⟨haccount, hitem⟩

section Books

variable {items : List (Obj × String)} {l l' : Ledger}

theorem Books.grows (h : Books A venue items l l') (hl : l.Ok venue) (hitems : ∀ i ∈ items, Named i) :
    l'.Ok venue ∧ Grows venue l l' := by
  obtain ⟨now, events, hevents, h⟩ := h
  refine h.grows hl fun e he => ?_
  obtain ⟨i, hi, hie⟩ := forall₂_right (mapM_ok hevents) e he
  exact eventOf_filed hie (hitems i hi)

theorem Books.stored {q : MirrorQueued} {before after : List (Obj × String)}
    (h : Books A venue (before ++ (.mQueued q, s!"queued:{q.ticketKey}") :: after) l l') (hl : l.Ok venue)
    (hitems : ∀ i ∈ before ++ (.mQueued q, s!"queued:{q.ticketKey}") :: after, Named i)
    (hnew : (l.mirror venue).tickets.get q.ticketKey = none)
    (hbefore : ∀ i ∈ before, ∀ q', i.1 = .mQueued q' → q'.ticketKey ≠ q.ticketKey) :
    ∃ row ∈ l'.rows, row.payload = .mQueued q ∧ row.account = accountFor venue := by
  obtain ⟨now, events, hevents, h⟩ := h
  have hfiled : ∀ e ∈ events, Filed venue e := by
    intro e he
    obtain ⟨i, hi, hie⟩ := forall₂_right (mapM_ok hevents) e he
    exact eventOf_filed hie (hitems i hi)
  rw [List.mapM_append] at hevents
  simp only [List.mapM_cons, bind_eq_ok, pure_eq_ok] at hevents
  obtain ⟨befores, hbefores, _, ⟨e, he, afters, -, rfl⟩, rfl⟩ := hevents
  obtain ⟨hpayload, hcommand, haccount⟩ := eventOf_ok he
  have hold : ∀ r ∈ l.rows, r.commandId ≠ some (commandOf venue s!"queued:{q.ticketKey}") := by
    intro r hr heq
    obtain ⟨hra, hnamed⟩ := hl.filed r hr _ heq
    obtain ⟨q', hq', hkey⟩ := (hnamed q.ticketKey).mp rfl
    obtain ⟨t, ht, -⟩ := hl.recorded r hr hra q' hq'
    rw [hkey, hnew] at ht
    cases ht
  have hearlier : ∀ r ∈ befores, r.commandId ≠ some (commandOf venue s!"queued:{q.ticketKey}") := by
    intro r hr heq
    obtain ⟨-, hnamed⟩ := hfiled r (List.mem_append_left _ hr) _ heq
    obtain ⟨q', hq', hkey⟩ := (hnamed q.ticketKey).mp rfl
    obtain ⟨i, hi, hir⟩ := forall₂_right (mapM_ok hbefores) r hr
    rw [(eventOf_ok hir).1] at hq'
    exact hbefore i hi q' hq' hkey
  obtain ⟨row, hrow, hsame, hra⟩ := h.stored hcommand hold hearlier
  exact ⟨row, hrow, hsame.trans hpayload, hra.trans haccount⟩

theorem Books.reconcile_cases {event : VenueReconcile} {suffix : String}
    (h : Books A venue [(.reconcile event, suffix)] l l') :
    (l.stored (commandOf venue suffix)).isSome = true ∧ l' = l ∨
      ∃ e row, row.payload = .reconcile event ∧ row.account = accountFor venue ∧ Stores A l l' e row := by
  obtain ⟨now, events, hevents, before, after, h⟩ := h
  simp only [List.mapM_cons, List.mapM_nil, bind_eq_ok, pure_eq_ok] at hevents
  obtain ⟨e, he, _, rfl, rfl⟩ := hevents
  simp only [List.foldlM_cons, List.foldlM_nil, bind_eq_ok, pure_eq_ok] at h
  obtain ⟨acc, hone, hacc⟩ := h
  obtain ⟨hpayload, hcommand, haccount⟩ := eventOf_ok he
  rcases write_ok hone with ⟨-, hstored, hsame⟩ | ⟨row, hrow⟩
  all_goals rw [hacc] at *
  · rw [hcommand] at hstored
    exact .inl ⟨hstored, hsame⟩
  · exact .inr ⟨e, row, hrow.payload.trans hpayload, hrow.account.trans haccount, hrow⟩

theorem applyEvent_reconcile {st st' : AccountState} {e : Event} {event : VenueReconcile}
    (h : applyEvent A st e = .ok st') (he : e.payload = .reconcile event) :
    st'.mirror = st.mirror ∧ st'.haltedVenues = (onReconcile st event).haltedVenues := by
  simp only [applyEvent, dispatch, he, bind_eq_ok, pure_eq_ok, Except.ok.injEq] at h
  obtain ⟨st₁, rfl, rfl⟩ := h
  exact ⟨rfl, rfl⟩

theorem Books.reconciled {event : VenueReconcile} {suffix : String}
    (h : Books A venue [(.reconcile event, suffix)] l l') : l'.mirror venue = l.mirror venue := by
  rcases h.reconcile_cases with ⟨-, rfl⟩ | ⟨e, row, hpayload, haccount, hrow⟩
  · rfl
  · have happlied := hrow.applied
    rw [haccount] at happlied
    exact (applyEvent_reconcile happlied hpayload).1

theorem Books.clean {event : VenueReconcile} {suffix : String}
    (h : Books A venue [(.reconcile event, suffix)] l l') (hclean : event.reconciled = true) (v : String) :
    v ∈ l'.halted ↔ v ∈ l.halted := by
  rcases h.reconcile_cases with ⟨-, rfl⟩ | ⟨e, row, hpayload, -, hrow⟩
  · rfl
  · refine hrow.halted_iff ?_ v
    rw [(applyEvent_reconcile hrow.applied hpayload).2]
    simp [onReconcile, hclean]

theorem Books.drift {event : VenueReconcile} {suffix : String}
    (h : Books A venue [(.reconcile event, suffix)] l l') (hdrift : event.reconciled = false) :
    (l.stored (commandOf venue suffix)).isSome = true ∧ l' = l ∨ event.venue ∈ l'.halted := by
  rcases h.reconcile_cases with h | ⟨e, row, hpayload, -, hrow⟩
  · exact .inl h
  · refine .inr (hrow.halts ?_)
    rw [(applyEvent_reconcile hrow.applied hpayload).2]
    simp only [onReconcile, hdrift, Bool.false_or]
    split
    · rename_i hmem
      simpa using hmem
    · exact List.mem_cons_self

theorem Books.prepares (h : Books A venue items l l') (hitems : ∀ i ∈ items, Prepares i) :
    (∀ v, v ∈ l'.halted ↔ v ∈ l.halted) ∧
      ∀ key t, (l.mirror venue).tickets.get key = some t → (l'.mirror venue).tickets.get key = some t := by
  obtain ⟨now, events, hevents, before, after, h⟩ := h
  refine foldlM_invariant (P := fun acc : Ledger × List Obj => (∀ v, v ∈ acc.1.halted ↔ v ∈ l.halted) ∧
      ∀ key t, (l.mirror venue).tickets.get key = some t → (acc.1.mirror venue).tickets.get key = some t)
    (fun acc e acc' he hone hacc => ?_) h ⟨fun _ => Iff.rfl, fun _ _ ht => ht⟩
  obtain ⟨i, hi, hie⟩ := forall₂_right (mapM_ok hevents) e he
  obtain ⟨hpayload, -, haccount⟩ := eventOf_ok hie
  rcases write_ok hone with ⟨-, -, hsame⟩ | ⟨row, hrow⟩
  · rw [hsame]
    exact hacc
  · have hprepares : Prepares (row.payload, i.2) := by
      rw [hrow.payload, hpayload]
      exact hitems i hi
    obtain ⟨hhalted, htickets⟩ := applyEvent_prepares hrow.applied hprepares
    refine ⟨fun v => (hrow.halted_iff hhalted v).trans (hacc.1 v), fun key t ht => ?_⟩
    rw [hrow.account, haccount] at htickets
    exact htickets key t (hacc.2 key t ht)

end Books

end TradeEngine.Tos.Session
