import TradeEngine.Ledger.Lemmas.Mirror

/-!
# What the strategies expect and what the venue is expected to hold

The exposure is counted per strategy order, from what each still lacks; the expected book per ticket,
from what each has not filled. What the orders of a ticket lack is what the ticket lacks, so the two
counts agree on every contract.
-/

namespace TradeEngine

open Lib

variable {D : RustDecimal}

/-! ## Counting a contract over the accounts -/

/-- Every entry of a book lies under the key of its account and contract. -/
def BookKeyed (m : OMap (String × Contract) Money) : Prop :=
  ∀ e ∈ m.items, e.1 = bookHk e.2.1.1 (.single e.2.1.2)

/-- The contracts under a key, over all strategy accounts. -/
def overAccounts (hk : String) (m : OMap (String × Contract) Money) : ℚ :=
  m.sumEntries fun k v => if k.2.hk = hk then v.val else 0

/-- The contracts under a key in a list of contracts. -/
def listed (hk : String) (es : List (Contract × Money)) : ℚ :=
  (es.map fun e => if e.1.hk = hk then e.2.val else 0).sum

theorem listed_cons (hk : String) (e : Contract × Money) (es : List (Contract × Money)) :
    listed hk (e :: es) = (if e.1.hk = hk then e.2.val else 0) + listed hk es := by
  rw [listed, listed, List.map_cons, List.sum_cons]

theorem BookKeyed.empty : BookKeyed .empty := by
  intro e he
  cases he

theorem BookKeyed.insert {m : OMap (String × Contract) Money} (h : BookKeyed m) (account : String)
    (c : Contract) (v : Money) : BookKeyed (m.insert (bookHk account (.single c)) (account, c) v) :=
  OMap.forall_keys_insert (P := fun t (k : String × Contract) => t = bookHk k.1 (.single k.2)) h rfl

theorem BookKeyed.remove {m : OMap (String × Contract) Money} (h : BookKeyed m) (hk : String) :
    BookKeyed (m.remove hk) := fun e he => h e (List.mem_of_mem_filter he)

/-- Writing an entry changes the count of its contract by the difference to what was there. -/
theorem BookKeyed.overAccounts_insert {m : OMap (String × Contract) Money} (h : BookKeyed m)
    (account : String) (c : Contract) (v : Money) (hk : String) :
    overAccounts hk (m.insert (bookHk account (.single c)) (account, c) v) =
      overAccounts hk m + if c.hk = hk then v.val - bookQty m account c else 0 := by
  unfold overAccounts bookQty
  cases hold : m.get (bookHk account (.single c)) with
  | none =>
      rw [OMap.sumEntries_insert_of_none _ _ _ hold]
      simp
  | some w =>
      obtain ⟨k, hk₀⟩ := OMap.mem_of_get hold
      have hsame : c.hk = k.2.hk := (bookHk_inj (h _ hk₀)).2
      rw [OMap.sumEntries_insert_of_mem _ _ _ hk₀, Option.getD_some, ← hsame]
      split <;> ring

/-! ## The exposure -/

theorem expose_spec {account : String} {m m' : OMap (String × Contract) Money} {e : Contract × Money}
    (hm : BookKeyed m) (h : expose (Unrounded D) account m e = .ok m') :
    BookKeyed m' ∧ ∀ hk, overAccounts hk m' = overAccounts hk m + if e.1.hk = hk then e.2.val else 0 := by
  simp only [expose, bind_eq_ok, pure_eq_ok] at h
  obtain ⟨total, htotal, rfl⟩ := h
  have htotal := Ops.unrounded_add htotal
  refine ⟨hm.insert _ _ _, fun hk => ?_⟩
  rw [hm.overAccounts_insert, htotal, bookQty, add_sub_cancel_left]

theorem exposes_spec {account : String} {es : List (Contract × Money)}
    {m m' : OMap (String × Contract) Money} (hm : BookKeyed m)
    (h : es.foldlM (expose (Unrounded D) account) m = .ok m') :
    BookKeyed m' ∧ ∀ hk, overAccounts hk m' = overAccounts hk m + listed hk es := by
  induction es generalizing m with
  | nil =>
      cases h
      exact ⟨hm, fun hk => by simp [listed]⟩
  | cons e es ih =>
      simp only [List.foldlM_cons, bind_eq_ok] at h
      obtain ⟨m₁, h₁, h⟩ := h
      obtain ⟨hm₁, hone⟩ := expose_spec hm h₁
      obtain ⟨hm', hrest⟩ := ih hm₁ h
      exact ⟨hm', fun hk => by rw [hrest, hone, listed_cons, add_assoc]⟩

/-- What the strategy orders of a ticket still lack. -/
def MirrorTicketState.lacking (t : MirrorTicketState) (as : List MirrorAllocation) : ℚ :=
  (as.map fun a => a.quantity.val - given t.allocated a.strategyOrderId).sum

theorem exposeAllocations_spec {t : MirrorTicketState} {as : List MirrorAllocation}
    {m m' : OMap (String × Contract) Money} (hm : BookKeyed m)
    (h : as.foldlM (exposeAllocation (Unrounded D) t) m = .ok m') :
    BookKeyed m' ∧ ∀ hk, overAccounts hk m' =
      overAccounts hk m + t.queued.unitContracts hk * t.lacking as := by
  induction as generalizing m with
  | nil =>
      cases h
      exact ⟨hm, fun hk => by simp [MirrorTicketState.lacking]⟩
  | cons a as ih =>
      simp only [List.foldlM_cons, exposeAllocation, bind_eq_ok] at h
      obtain ⟨m₁, ⟨lack, hlack, contracts, hcontracts, h₁⟩, h⟩ := h
      have hlack := Ops.unrounded_sub hlack
      obtain ⟨hm₁, hone⟩ := exposes_spec hm h₁
      obtain ⟨hm', hrest⟩ := ih hm₁ h
      refine ⟨hm', fun hk => ?_⟩
      have hlisted : listed hk contracts.entries =
          t.queued.unitContracts hk * (a.quantity.val - given t.allocated a.strategyOrderId) := by
        rw [listed, ticketContracts_spec hcontracts, hlack]
        rfl
      rw [hrest, hone, hlisted, MirrorTicketState.lacking, MirrorTicketState.lacking, List.map_cons,
        List.sum_cons]
      ring

/-- The orders of a ticket lack together what the ticket lacks. -/
theorem MirrorTicketState.Ok.lacking_eq {key : String} {t : MirrorTicketState} (h : t.Ok key) :
    t.lacking t.queued.allocations = t.queued.quantity.val - t.filled.val := by
  rw [← h.quantity, ← h.sum, lacking, total, List.map_map]
  induction t.queued.allocations with
  | nil => simp
  | cons a as ih =>
      simp only [List.map_cons, List.sum_cons, ih, Function.comp_apply]
      ring

/-- What the open tickets have not filled, in contracts under a key. -/
def unfilled (hk : String) (ts : List MirrorTicketState) : ℚ :=
  (ts.map fun t => t.queued.unitContracts hk * (t.queued.quantity.val - t.filled.val)).sum

theorem exposeTickets_spec {ts : List MirrorTicketState} {m m' : OMap (String × Contract) Money}
    (hts : ∀ t ∈ ts, ∃ key, t.Ok key) (hm : BookKeyed m)
    (h : ts.foldlM (fun m t => t.queued.allocations.foldlM (exposeAllocation (Unrounded D) t) m) m =
      .ok m') :
    BookKeyed m' ∧ ∀ hk, overAccounts hk m' = overAccounts hk m + unfilled hk ts := by
  induction ts generalizing m with
  | nil =>
      cases h
      exact ⟨hm, fun hk => by simp [unfilled]⟩
  | cons t ts ih =>
      simp only [List.foldlM_cons, bind_eq_ok] at h
      obtain ⟨m₁, h₁, h⟩ := h
      obtain ⟨key, hok⟩ := hts t List.mem_cons_self
      obtain ⟨hm₁, hone⟩ := exposeAllocations_spec hm h₁
      obtain ⟨hm', hrest⟩ := ih (fun t' ht' => hts t' (List.mem_cons_of_mem _ ht')) hm₁ h
      refine ⟨hm', fun hk => ?_⟩
      rw [hrest, hone, hok.lacking_eq, unfilled, unfilled, List.map_cons, List.sum_cons, add_assoc]

/-- Writing entries afresh, without those of no contracts, adds what they count for. -/
theorem copy_spec {p : Money → Bool} (hkeep : ∀ v, p v = false → v.val = 0)
    {l : List ((String × Contract) × Money)} {m : OMap (String × Contract) Money} (hm : BookKeyed m)
    (hn : (l.map fun e => bookHk e.1.1 (.single e.1.2)).Nodup)
    (hfresh : ∀ e ∈ l, m.get (bookHk e.1.1 (.single e.1.2)) = none) (hk : String) :
    BookKeyed (l.foldl (fun m e =>
      if p e.2 then m.insert (bookHk e.1.1 (.single e.1.2)) e.1 e.2 else m) m) ∧
    overAccounts hk (l.foldl (fun m e =>
      if p e.2 then m.insert (bookHk e.1.1 (.single e.1.2)) e.1 e.2 else m) m) =
        overAccounts hk m + (l.map fun e => if e.1.2.hk = hk then e.2.val else 0).sum := by
  induction l generalizing m with
  | nil => exact ⟨hm, by simp⟩
  | cons e l ih =>
      rw [List.map_cons, List.nodup_cons] at hn
      have hrest : ∀ x ∈ l, m.get (bookHk x.1.1 (.single x.1.2)) = none :=
        fun x hx => hfresh x (List.mem_cons_of_mem _ hx)
      rw [List.foldl_cons, List.map_cons, List.sum_cons]
      cases hp : p e.2 with
      | false =>
          obtain ⟨hm', hsum⟩ := ih hm hn.2 hrest
          refine ⟨hm', hsum.trans ?_⟩
          simp [hkeep _ hp]
      | true =>
          have hnone : ∀ x ∈ l, (m.insert (bookHk e.1.1 (.single e.1.2)) e.1 e.2).get (bookHk x.1.1 (.single x.1.2)) = none := by
            intro x hx
            rw [OMap.get_insert_ne _ _ _ fun heq => hn.1 (List.mem_map.mpr ⟨x, hx, heq⟩)]
            exact hrest x hx
          obtain ⟨hm', hsum⟩ := ih (hm.insert e.1.1 e.1.2 e.2) hn.2 hnone
          refine ⟨hm', hsum.trans ?_⟩
          rw [hm.overAccounts_insert, bookQty, hfresh e List.mem_cons_self, Option.getD_none,
            Money.val_zero, sub_zero, add_assoc]

theorem BookKeyed.entries_nodup {m : OMap (String × Contract) Money} (h : BookKeyed m) :
    (m.entries.map fun e => bookHk e.1.1 (.single e.1.2)).Nodup := by
  have hkeys : m.entries.map (fun e => bookHk e.1.1 (.single e.1.2)) = m.items.map (·.1) := by
    rw [OMap.entries, List.map_map]
    exact List.map_congr_left fun e he => (h e he).symm
  rw [hkeys]
  exact m.nodup

theorem overAccounts_eq (hk : String) (m : OMap (String × Contract) Money) :
    overAccounts hk m = (m.entries.map fun e => if e.1.2.hk = hk then e.2.val else 0).sum := by
  simp [overAccounts, OMap.sumEntries, OMap.entries, List.map_map, Function.comp_def]

theorem overAccounts_empty (hk : String) : overAccounts hk .empty = 0 := by
  simp [overAccounts, OMap.sumEntries, OMap.empty]

theorem exposure_spec {m : MirrorState} {x : OMap (String × Contract) Money}
    (hts : ∀ t ∈ m.openTickets, ∃ key, t.Ok key) (hm : BookKeyed m.book)
    (h : m.exposure (Unrounded D) = .ok x) (hk : String) :
    overAccounts hk x = overAccounts hk m.book + unfilled hk m.openTickets := by
  simp only [MirrorState.exposure, bind_eq_ok, pure_eq_ok] at h
  obtain ⟨all, hall, rfl⟩ := h
  obtain ⟨hcopy, hcopied⟩ := copy_spec (p := fun _ => true) (fun v hv => by cases hv) .empty
    hm.entries_nodup (fun e _ => OMap.get_empty _) hk
  simp only [if_true] at hcopy hcopied
  obtain ⟨hall, hsum⟩ := exposeTickets_spec hts hcopy hall
  have hdrop : ∀ v : Money, (!v.eqNum .zero) = false → v.val = 0 := by
    intro v hv
    have hz : v.eqNum .zero = true := by simpa using hv
    rw [Money.eqNum_iff, Money.val_zero] at hz
    exact hz
  obtain ⟨-, hkept⟩ := copy_spec (p := fun v => !v.eqNum .zero) hdrop .empty hall.entries_nodup
    (fun e _ => OMap.get_empty _) hk
  rw [overAccounts_empty, zero_add, ← overAccounts_eq] at hcopied hkept
  rw [← hcopied, ← hsum, ← hkept]
  congr 2
  funext y e
  cases e.2.eqNum .zero <;> rfl

/-! ## The expected book -/

/-- What a map of contracts has under a key. -/
def onHand (hk : String) (m : OMap Contract Money) : ℚ := ((m.get hk).getD .zero).val

theorem expect_spec {m m' : OMap Contract Money} {e : Contract × Money}
    (h : expect (Unrounded D) m e = .ok m') (hk : String) :
    onHand hk m' = onHand hk m + if e.1.hk = hk then e.2.val else 0 := by
  simp only [expect, bind_eq_ok, pure_eq_ok] at h
  obtain ⟨total, htotal, rfl⟩ := h
  have htotal := Ops.unrounded_add htotal
  rw [onHand, OMap.get_insert]
  by_cases heq : e.1.hk = hk
  · rw [if_pos heq.symm, if_pos heq, Option.getD_some, htotal, heq]
    rfl
  · rw [if_neg (Ne.symm heq), if_neg heq, add_zero]
    rfl

theorem expects_spec {α : Type} {f : α → Contract × Money} {l : List α} {m m' : OMap Contract Money}
    (h : l.foldlM (fun m a => expect (Unrounded D) m (f a)) m = .ok m') (hk : String) :
    onHand hk m' = onHand hk m + listed hk (l.map f) := by
  induction l generalizing m with
  | nil =>
      cases h
      simp [listed]
  | cons a l ih =>
      simp only [List.foldlM_cons, bind_eq_ok] at h
      obtain ⟨m₁, h₁, h⟩ := h
      rw [ih h, expect_spec h₁, List.map_cons, listed_cons, add_assoc]

theorem expectTickets_spec {ts : List MirrorTicketState} {m m' : OMap Contract Money}
    (hts : ∀ t ∈ ts, t.terminal = false)
    (h : ts.foldlM (fun m t => do
      (← ticketContracts (Unrounded D) t.queued (← t.remaining (Unrounded D))).entries.foldlM
        (expect (Unrounded D)) m) m = .ok m') (hk : String) :
    onHand hk m' = onHand hk m + unfilled hk ts := by
  induction ts generalizing m with
  | nil =>
      cases h
      simp [unfilled]
  | cons t ts ih =>
      simp only [List.foldlM_cons, bind_eq_ok] at h
      obtain ⟨m₁, ⟨units, hunits, contracts, hcontracts, h₁⟩, h⟩ := h
      rw [MirrorTicketState.remaining, hts t List.mem_cons_self] at hunits
      have hunits := Ops.unrounded_sub hunits
      have hone := expects_spec (f := id) h₁ hk
      rw [List.map_id, listed, ticketContracts_spec hcontracts, hunits] at hone
      rw [ih (fun t' ht' => hts t' (List.mem_cons_of_mem _ ht')) h, hone, unfilled, unfilled,
        List.map_cons, List.sum_cons, add_assoc]

theorem expected_spec {m : MirrorState} {y : OMap Contract Money}
    (h : m.expected (Unrounded D) = .ok y) (hk : String) :
    onHand hk y = overAccounts hk m.book + unfilled hk m.openTickets := by
  simp only [MirrorState.expected, bind_eq_ok] at h
  obtain ⟨held, hheld, h⟩ := h
  have hopen : ∀ t ∈ m.openTickets, t.terminal = false := by
    intro t ht
    simpa using (List.mem_filter.mp ht).2
  have hbook := expects_spec (f := fun e : (String × Contract) × Money => (e.1.2, e.2)) hheld hk
  have hzero : onHand hk .empty = 0 := by
    rw [onHand, OMap.get_empty, Option.getD_none, Money.val_zero]
  rw [hzero, zero_add, listed, List.map_map] at hbook
  rw [expectTickets_spec hopen h hk, hbook, overAccounts_eq]
  rfl

/-! ## Reachable mirrors -/

theorem MirrorState.Ok.openTickets {m : MirrorState} (h : m.Ok) :
    ∀ t ∈ m.openTickets, ∃ key, t.Ok key := by
  intro t ht
  obtain ⟨e, he, rfl⟩ := List.mem_map.mp (List.mem_filter.mp ht).1
  have he := (List.perm_insertionSort _ _).mem_iff.mp he
  obtain ⟨i, hi, rfl⟩ := List.mem_map.mp he
  exact ⟨i.1, h.tickets _ _ (OMap.get_of_mem hi)⟩

theorem bookAdd_keyed {A : Arith} {account : String} {book book' : OMap (String × Contract) Money}
    {e : Contract × Money} (h : bookAdd A account book e = .ok book') (hb : BookKeyed book) :
    BookKeyed book' := by
  simp only [bookAdd, bind_eq_ok, pure_eq_ok] at h
  obtain ⟨total, -, rfl⟩ := h
  split
  · exact hb.remove _
  · exact hb.insert _ _ _

theorem onMirrorFill_keyed {A : Arith} {m m' : MirrorState} {f : MirrorFill}
    (h : onMirrorFill A m f = .ok m') (hm : BookKeyed m.book) : BookKeyed m'.book := by
  simp only [onMirrorFill, bind_eq_ok] at h
  obtain ⟨_, -, t, -, _, -, _, -, _, -, h⟩ := h
  split at h
  · simp only [bind_eq_ok, pure_eq_ok] at h
    obtain ⟨_, -, rfl⟩ := h
    exact hm
  · simp only [bind_eq_ok, pure_eq_ok] at h
    obtain ⟨_, -, _, -, _, -, _, -, ab, hsplit, rfl⟩ := h
    refine foldlM_invariant (P := fun ab : OMap String Money × OMap (String × Contract) Money =>
      BookKeyed ab.2) (fun ab piece ab' _ hone hab => ?_) hsplit hm
    simp only [allocateFill, bind_eq_ok, pure_eq_ok] at hone
    obtain ⟨_, -, contracts, -, book, hbook, rfl⟩ := hone
    exact foldlM_invariant (fun b e b' _ hadd hb => bookAdd_keyed hadd hb) hbook hab

theorem onQueued_book {m m' : MirrorState} {q : MirrorQueued} (h : onQueued m q = .ok m') :
    m'.book = m.book := by
  simp only [onQueued, bind_eq_ok] at h
  obtain ⟨_, -, h⟩ := h
  split at h
  · simp only [bind_eq_ok, pure_eq_ok] at h
    obtain ⟨_, -, rfl⟩ := h
    rfl
  · simp only [bind_eq_ok, pure_eq_ok] at h
    obtain ⟨_, -, rfl⟩ := h
    rfl

theorem onRefused_book {m m' : MirrorState} {r : MirrorRefused} (h : onRefused m r = .ok m') :
    m'.book = m.book := by
  simp only [onRefused, bind_eq_ok] at h
  obtain ⟨_, -, h⟩ := h
  split at h
  · cases h
  · split at h
    · cases h
      rfl
    · cases h
      rfl

theorem onAck_book {m m' : MirrorState} {a : MirrorAck} (h : onAck m a = .ok m') :
    m'.book = m.book := by
  simp only [onAck, bind_eq_ok, pure_eq_ok] at h
  obtain ⟨_, -, t, -, _, -, rfl⟩ := h
  rfl

/-- What each step of the mirror keeps, the fold keeps. -/
theorem run_mirror {A : Arith} {P : MirrorState → Prop}
    (hqueued : ∀ m q m', onQueued m q = .ok m' → P m → P m')
    (hrefused : ∀ m r m', onRefused m r = .ok m' → P m → P m')
    (hack : ∀ m a m', onAck m a = .ok m' → P m → P m')
    (hfill : ∀ m f m', onMirrorFill A m f = .ok m' → P m → P m')
    {es : List Event} {st st' : AccountState} (h : es.foldlM (applyEvent A) st = .ok st')
    (hst : P st.mirror) : P st'.mirror := by
  refine foldlM_invariant (P := fun st : AccountState => P st.mirror) (fun st e st' _ hone hst => ?_) h hst
  simp only [applyEvent, bind_eq_ok, pure_eq_ok] at hone
  obtain ⟨st₁, hone, rfl⟩ := hone
  rcases dispatch_mirror hone with h | ⟨q, -, h⟩ | ⟨r, -, h⟩ | ⟨a, -, h⟩ | ⟨f, -, h⟩
  · change P st₁.mirror
    rw [h]
    exact hst
  · exact hqueued _ _ _ h hst
  · exact hrefused _ _ _ h hst
  · exact hack _ _ _ h hst
  · exact hfill _ _ _ h hst

theorem run_bookKeyed {A : Arith} {es : List Event} {st st' : AccountState}
    (h : es.foldlM (applyEvent A) st = .ok st') (hst : BookKeyed st.mirror.book) :
    BookKeyed st'.mirror.book := by
  refine run_mirror (P := fun m => BookKeyed m.book) ?_ ?_ ?_ ?_ h hst
  · intro m q m' h hm
    rw [onQueued_book h]
    exact hm
  · intro m r m' h hm
    rw [onRefused_book h]
    exact hm
  · intro m a m' h hm
    rw [onAck_book h]
    exact hm
  · exact fun m f m' h hm => onMirrorFill_keyed h hm

/-- Every ticket is stored under its own key. -/
structure TicketKeyed (m : MirrorState) : Prop where
  own : ∀ key t, m.tickets.get key = some t → t.queued.ticketKey = key
  named : ∀ e ∈ m.tickets.items, e.1 = e.2.1

theorem TicketKeyed.new : TicketKeyed .new := by
  constructor <;> simp [MirrorState.new, OMap.empty, OMap.get]

theorem TicketKeyed.put {m m' : MirrorState} {key : String} {t : MirrorTicketState} (h : TicketKeyed m)
    (hm' : m'.tickets = m.tickets.put key t) (ht : t.queued.ticketKey = key) : TicketKeyed m' := by
  constructor
  case own =>
    intro k u hu
    rw [hm', OMap.get_put] at hu
    split at hu
    · cases hu
      rw [ht]
      exact ‹k = key›.symm
    · exact h.own k u hu
  case named =>
    rw [hm']
    exact OMap.forall_keys_insert (P := fun t k : String => t = k) h.named rfl

theorem run_ticketKeyed {A : Arith} {es : List Event} {st st' : AccountState}
    (h : es.foldlM (applyEvent A) st = .ok st') (hst : TicketKeyed st.mirror) : TicketKeyed st'.mirror := by
  refine run_mirror ?_ ?_ ?_ ?_ h hst
  · intro m q m' h hm
    simp only [onQueued, bind_eq_ok] at h
    obtain ⟨_, -, h⟩ := h
    split at h
    · simp only [bind_eq_ok, pure_eq_ok] at h
      obtain ⟨_, -, rfl⟩ := h
      exact hm
    · simp only [bind_eq_ok, pure_eq_ok] at h
      obtain ⟨_, -, rfl⟩ := h
      exact hm.put rfl rfl
  · intro m r m' h hm
    simp only [onRefused, bind_eq_ok] at h
    obtain ⟨_, -, h⟩ := h
    split at h
    · cases h
    · split at h
      · cases h
        exact hm
      · cases h
        exact ⟨hm.own, hm.named⟩
  · intro m a m' h hm
    simp only [onAck, bind_eq_ok, pure_eq_ok] at h
    obtain ⟨_, -, t, ht, _, -, rfl⟩ := h
    exact hm.put rfl (hm.own _ t (mirrorTicket_ok ht) :)
  · intro m f m' h hm
    simp only [onMirrorFill, bind_eq_ok] at h
    obtain ⟨_, -, t, ht, _, -, _, -, _, -, h⟩ := h
    split at h
    · simp only [bind_eq_ok, pure_eq_ok] at h
      obtain ⟨_, -, rfl⟩ := h
      exact hm
    · simp only [bind_eq_ok, pure_eq_ok] at h
      obtain ⟨_, -, _, -, _, -, _, -, ab, -, rfl⟩ := h
      exact hm.put rfl (hm.own _ t (mirrorTicket_ok ht) :)

/-- The fold of one account's events reaches the mirror. -/
def MirrorState.Reached (A : Arith) (m : MirrorState) : Prop :=
  ∃ (account : String) (es : List Event) (st : AccountState),
    es.foldlM (applyEvent A) (.new account) = .ok st ∧ st.mirror = m

theorem MirrorState.Reached.ticketKeyed {A : Arith} {m : MirrorState} (h : m.Reached A) :
    TicketKeyed m := by
  obtain ⟨account, es, st, hrun, rfl⟩ := h
  exact run_ticketKeyed hrun .new

/-! ## The two arithmetics -/

section Refuses

variable {A B : Arith} (le : A.Le B)

include le

theorem exposure_refuses (m : MirrorState) : Refuses (m.exposure A) (m.exposure B) := by
  refine .bind (.foldlM (fun x t => .foldlM (fun y a => ?_) _ _) _ _) fun _ _ => .refl
  refine (Ops.sub_refuses le _ _).bind fun lacking _ => ?_
  refine (ticketContracts_refuses le t.queued lacking).bind fun contracts _ => ?_
  exact .foldlM (fun z e => (Ops.add_refuses le _ _).bind fun _ _ => .refl) _ _

theorem expected_refuses (m : MirrorState) : Refuses (m.expected A) (m.expected B) := by
  have hone : ∀ x e, Refuses (expect A x e) (expect B x e) :=
    fun x e => (Ops.add_refuses le _ _).bind fun _ _ => .refl
  refine .bind (.foldlM (fun x e => hone x _) _ _) fun held _ => .foldlM (fun x t => ?_) _ _
  refine .bind ?_ fun units _ => ?_
  · exact .ite (fun _ => .refl) fun _ => Ops.sub_refuses le _ _
  · exact (ticketContracts_refuses le t.queued units).bind fun contracts _ => .foldlM hone _ _

end Refuses

end TradeEngine
