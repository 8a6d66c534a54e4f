import TradeEngine.Lib.Text
import TradeEngine.Ledger.Lemmas.Exact
import TradeEngine.Ledger.Lemmas.Orders
import TradeEngine.Ledger.Lemmas.Shares

/-!
# The mirror of a venue

Fills of a ticket are split over its strategy orders by difference, and what an order is given goes
into its account's book at once. So the book is the sum over the tickets, at every step.
-/

namespace TradeEngine

open Lib

variable {D : RustDecimal}

/-! ## Book keys -/

theorem bookHk_inj {a b : String} {i j : Instrument} (h : bookHk a i = bookHk b j) :
    a = b ∧ i.hk = j.hk := by
  have hlist : ∀ (a : String) (i : Instrument), (bookHk a i).toList =
      Nat.toDigits 10 a.utf8ByteSize ++ ':' :: (a ++ i.hk).toList := by
    intro a i
    simp [bookHk, String.toList_append]
  refine @length_cons_inj a b i.hk j.hk ':' (by decide) ?_
  rw [← hlist, ← hlist, h]

/-- What the book has of a contract in a strategy account. -/
def bookQty (book : OMap (String × Contract) Money) (account : String) (c : Contract) : ℚ :=
  ((book.get (bookHk account (.single c))).getD .zero).val

theorem bookAdd_spec {account : String} {book book' : OMap (String × Contract) Money}
    {e : Contract × Money} (h : bookAdd (Unrounded D) account book e = .ok book') (a : String)
    (c : Contract) : bookQty book' a c =
      bookQty book a c + if a = account ∧ c.hk = e.1.hk then e.2.val else 0 := by
  simp only [bookAdd, bind_eq_ok, pure_eq_ok] at h
  obtain ⟨total, htotal, rfl⟩ := h
  have hval := Ops.unrounded_add htotal
  by_cases hk : a = account ∧ c.hk = e.1.hk
  · have heq : bookHk a (.single c) = bookHk account (.single e.1) := by rw [bookHk, bookHk, Instrument.hk, Instrument.hk, hk.1, hk.2]
    rw [if_pos hk, bookQty, bookQty, heq, ← hval]
    split
    · rename_i hz
      rw [Money.eqNum_iff, Money.val_zero] at hz
      rw [OMap.get_remove, if_pos rfl, hz, Option.getD_none, Money.val_zero]
    · rw [OMap.get_insert_self]
      rfl
  · have hne : bookHk a (.single c) ≠ bookHk account (.single e.1) := fun heq => hk (bookHk_inj heq)
    rw [if_neg hk, add_zero, bookQty, bookQty]
    split
    · rw [OMap.get_remove, if_neg hne]
    · rw [OMap.get_insert_ne _ _ _ hne]

theorem bookAdds_spec {account : String} {es : List (Contract × Money)}
    {book book' : OMap (String × Contract) Money}
    (h : es.foldlM (bookAdd (Unrounded D) account) book = .ok book') (a : String) (c : Contract) :
    bookQty book' a c = bookQty book a c +
      if a = account then (es.map fun e => if e.1.hk = c.hk then e.2.val else 0).sum else 0 := by
  induction es generalizing book with
  | nil =>
      cases h
      simp
  | cons e es ih =>
      simp only [List.foldlM_cons, bind_eq_ok] at h
      obtain ⟨mid, hmid, h⟩ := h
      rw [ih h, bookAdd_spec hmid, List.map_cons, List.sum_cons]
      by_cases ha : a = account
      · simp only [ha, true_and, if_true, eq_comm (a := c.hk)]
        ring
      · simp [ha]

/-! ## Contracts of a ticket -/

/-- The signed contracts under a key after one more leg: a repeated contract keeps its last value. -/
def legUnits (hk : String) (v : ℚ) (leg : ComboLeg) : ℚ :=
  if leg.contract.hk = hk then leg.side.unit * leg.ratio else v

/-- The signed contracts under a key that one unit of a ticket puts on the venue. -/
def MirrorQueued.unitContracts (q : MirrorQueued) (hk : String) : ℚ :=
  match q.instrument with
  | .combo legs => legs.foldl (legUnits hk) 0
  | .single c => if c.hk = hk then q.side.unit else 0

theorem Side.sign_val (s : Side) : s.sign.val = s.unit := by
  cases s <;> simp [Side.sign, Side.unit, Money.val, Money.one, Money.minusOne]

/-- A map of contracts has each under its own key. -/
def Keyed (m : OMap Contract Money) : Prop := ∀ e ∈ m.items, e.1 = e.2.1.hk

theorem Keyed.empty : Keyed .empty := by
  intro e he
  cases he

theorem Keyed.insert {m : OMap Contract Money} (h : Keyed m) (c : Contract) (v : Money) :
    Keyed (m.insert c.hk c v) :=
  OMap.forall_keys_insert (P := fun (t : String) (c : Contract) => t = c.hk) h rfl

theorem Keyed.sum {m : OMap Contract Money} (h : Keyed m) (hk : String) :
    (m.entries.map fun e => if e.1.hk = hk then e.2.val else 0).sum =
      ((m.get hk).getD .zero).val := by
  have hitems : m.entries.map (fun e => if e.1.hk = hk then e.2.val else 0) =
      m.items.map fun e => if e.1 = hk then e.2.2.val else 0 := by
    rw [OMap.entries, List.map_map]
    refine List.map_congr_left fun e he => ?_
    simp only [Function.comp_apply, h e he]
  rw [hitems, OMap.sum_under_key]
  cases m.get hk <;> simp

/-- Along the legs the map holds what the reading of the legs so far says. -/
theorem legContracts_spec {units : Money} {legs : List ComboLeg} {out out' : OMap Contract Money}
    {hk : String} {v : ℚ} (hkeyed : Keyed out) (hv : ((out.get hk).getD .zero).val = v * units.val)
    (h : legs.foldlM (fun out leg => do
      let v ← Ops.mulI (Unrounded D) (← Ops.mul (Unrounded D) leg.side.sign units) leg.ratio
      pure (out.insert leg.contract.hk leg.contract v)) out = .ok out') :
    Keyed out' ∧ ((out'.get hk).getD .zero).val = legs.foldl (legUnits hk) v * units.val := by
  induction legs generalizing out v with
  | nil =>
      cases h
      exact ⟨hkeyed, hv⟩
  | cons leg legs ih =>
      simp only [List.foldlM_cons, bind_eq_ok, pure_eq_ok] at h
      obtain ⟨_, ⟨s, hs, x, hx, rfl⟩, h⟩ := h
      refine ih (hkeyed.insert _ _) ?_ h
      have hxval : x.val = leg.side.unit * units.val * leg.ratio := by
        rw [Ops.mulI, except_mapError_eq_ok] at hx
        obtain ⟨r, hr, hx⟩ := bind_eq_ok.mp hx
        rw [(keepExact_eq_ok.mp hx).2, Money.fromI128_val hr, Ops.unrounded_mul hs, Side.sign_val]
      rw [OMap.get_insert, legUnits]
      by_cases heq : leg.contract.hk = hk
      · rw [if_pos heq.symm, if_pos heq, Option.getD_some, hxval]
        ring
      · rw [if_neg (Ne.symm heq), if_neg heq, hv]

theorem ticketContracts_spec {q : MirrorQueued} {units : Money} {m : OMap Contract Money}
    (h : ticketContracts (Unrounded D) q units = .ok m) (hk : String) :
    (m.entries.map fun e => if e.1.hk = hk then e.2.val else 0).sum =
      q.unitContracts hk * units.val := by
  unfold ticketContracts at h
  unfold MirrorQueued.unitContracts
  cases hi : q.instrument with
  | combo legs =>
      rw [hi] at h
      have hzero : (((OMap.empty : OMap Contract Money).get hk).getD .zero).val = 0 * units.val := by
        simp
      obtain ⟨hkeyed, hget⟩ := legContracts_spec .empty hzero h
      rw [hkeyed.sum, hget]
  | single c =>
      rw [hi] at h
      simp only [bind_eq_ok, pure_eq_ok] at h
      obtain ⟨v, hv, rfl⟩ := h
      rw [(Keyed.empty.insert c v).sum, OMap.get_insert]
      dsimp only
      by_cases heq : c.hk = hk
      · rw [if_pos heq.symm, if_pos heq, Option.getD_some, Ops.unrounded_mul hv, Side.sign_val]
      · rw [if_neg (Ne.symm heq), if_neg heq, OMap.get_empty, Option.getD_none, Money.val_zero, zero_mul]

/-! ## Splitting one fill -/

/-- What a table of allocations gives a strategy order. -/
def given (al : OMap String Money) (id : String) : ℚ := ((al.get id).getD .zero).val

/-- What the pieces of a fill put into an account's book. -/
def pieceContracts (q : MirrorQueued) (ps : List (MirrorAllocation × Money)) (account hk : String) : ℚ :=
  (ps.map fun e => if e.1.strategyAccount = account then q.unitContracts hk * e.2.val else 0).sum

theorem allocateFill_spec {q : MirrorQueued} {al al' : OMap String Money}
    {book book' : OMap (String × Contract) Money} {e : MirrorAllocation × Money}
    (h : allocateFill (Unrounded D) q (al, book) e = .ok (al', book')) :
    (∀ id, given al' id = given al id + if id = e.1.strategyOrderId then e.2.val else 0) ∧
    al'.sumBy Money.val = al.sumBy Money.val + e.2.val ∧
    ∀ a c, bookQty book' a c = bookQty book a c + pieceContracts q [e] a c.hk := by
  simp only [allocateFill, bind_eq_ok, pure_eq_ok, Prod.mk.injEq] at h
  obtain ⟨total, htotal, contracts, hcontracts, b, hb, rfl, rfl⟩ := h
  have hval := Ops.unrounded_add htotal
  refine ⟨fun id => ?_, ?_, fun a c => ?_⟩
  · rw [given, OMap.get_put]
    by_cases hid : id = e.1.strategyOrderId
    · rw [if_pos hid, if_pos hid, Option.getD_some, hval, hid]
      rfl
    · rw [if_neg hid, if_neg hid, add_zero]
      rfl
  · rw [OMap.put, OMap.sumBy_insert, hval]
    cases al.get e.1.strategyOrderId with
    | none => simp
    | some old => simp only [Option.map_some, Option.getD_some]; ring
  · rw [bookAdds_spec hb, ticketContracts_spec hcontracts]
    simp [pieceContracts, eq_comm (a := a)]

theorem allocateFills_spec {q : MirrorQueued} {ps : List (MirrorAllocation × Money)}
    {al al' : OMap String Money} {book book' : OMap (String × Contract) Money}
    (h : ps.foldlM (allocateFill (Unrounded D) q) (al, book) = .ok (al', book')) :
    (∀ id, given al' id = given al id +
      (ps.map fun e => if id = e.1.strategyOrderId then e.2.val else 0).sum) ∧
    al'.sumBy Money.val = al.sumBy Money.val + total (ps.map (·.2)) ∧
    ∀ a c, bookQty book' a c = bookQty book a c + pieceContracts q ps a c.hk := by
  induction ps generalizing al book with
  | nil =>
      cases h
      simp [pieceContracts]
  | cons e ps ih =>
      simp only [List.foldlM_cons, bind_eq_ok] at h
      obtain ⟨⟨al1, book1⟩, h1, h⟩ := h
      obtain ⟨hgiven1, hsum1, hbook1⟩ := allocateFill_spec h1
      obtain ⟨hgiven, hsum, hbook⟩ := ih h
      refine ⟨fun id => ?_, ?_, fun a c => ?_⟩
      · rw [hgiven, hgiven1, List.map_cons, List.sum_cons, add_assoc]
      · rw [hsum, hsum1, List.map_cons, total_cons, add_assoc]
      · rw [hbook, hbook1]
        simp only [pieceContracts, List.map_cons, List.sum_cons, List.map_nil, List.sum_nil, add_zero]
        ring

/-! ## Tickets -/

/-- One ticket: what its strategy orders were given is what it has filled, none more than its own
quantity. -/
structure MirrorTicketState.Ok (key : String) (t : MirrorTicketState) : Prop where
  key_eq : t.queued.ticketKey = key
  ids : (t.queued.allocations.map (·.strategyOrderId)).Nodup
  vec : t.queued.allocations.length < vecLimit
  quantity : total (t.queued.allocations.map (·.quantity)) = t.queued.quantity.val
  filled_le : t.filled.val ≤ t.queued.quantity.val
  sum : (t.queued.allocations.map fun a => given t.allocated a.strategyOrderId).sum = t.filled.val
  table : t.allocated.sumBy Money.val = t.filled.val
  each : ∀ a ∈ t.queued.allocations, (∃ n : ℤ, given t.allocated a.strategyOrderId = n) ∧
    0 ≤ given t.allocated a.strategyOrderId ∧ given t.allocated a.strategyOrderId ≤ a.quantity.val

/-- The signed contracts of what a ticket's strategy orders in an account were given. -/
def MirrorTicketState.contracts (t : MirrorTicketState) (account hk : String) : ℚ :=
  (t.queued.allocations.map fun a => if a.strategyAccount = account then
    t.queued.unitContracts hk * given t.allocated a.strategyOrderId else 0).sum

theorem forall₂_trans {α β γ : Type} {R : α → β → Prop} {S : β → γ → Prop} {l : List α} {m : List β}
    {r : List γ} (h : List.Forall₂ R l m) (h' : List.Forall₂ S m r) :
    List.Forall₂ (fun a c => ∃ b, R a b ∧ S b c) l r := by
  induction h generalizing r with
  | nil =>
      cases h'
      exact .nil
  | cons hab _ ih =>
      cases h' with
      | cons hbc hrest => exact .cons ⟨_, hab, hbc⟩ (ih hrest)

/-- Of pieces under distinct ids, an id's own piece is all it gets. -/
theorem sum_own {ps : List (MirrorAllocation × Money)} (hn : (ps.map (·.1.strategyOrderId)).Nodup)
    {e : MirrorAllocation × Money} (he : e ∈ ps) :
    (ps.map fun x => if e.1.strategyOrderId = x.1.strategyOrderId then x.2.val else 0).sum = e.2.val := by
  induction ps with
  | nil => cases he
  | cons x ps ih =>
      rw [List.map_cons, List.nodup_cons] at hn
      rw [List.map_cons, List.sum_cons]
      rcases List.mem_cons.mp he with rfl | he
      · have hrest : (ps.map fun x => if e.1.strategyOrderId = x.1.strategyOrderId then x.2.val
            else 0).sum = 0 := by
          refine List.sum_eq_zero fun y hy => ?_
          obtain ⟨z, hz, rfl⟩ := List.mem_map.mp hy
          exact if_neg fun heq => hn.1 (List.mem_map.mpr ⟨z, hz, heq.symm⟩)
        rw [if_pos rfl, hrest, add_zero]
      · rw [if_neg fun heq => hn.1 (List.mem_map.mpr ⟨e, he, heq⟩), zero_add, ih hn.2 he]

theorem total_of_differences {as : List MirrorAllocation} {ls : List Money} {f g : MirrorAllocation → ℚ}
    (h : List.Forall₂ (fun (a : MirrorAllocation) (l : Money) => l.val = f a - g a) as ls) :
    total ls = (as.map f).sum - (as.map g).sum := by
  induction h with
  | nil => simp
  | cons hl _ ih =>
      simp only [total_cons, List.map_cons, List.sum_cons, hl, ih]
      ring

section Fill

variable {t : MirrorTicketState} {key : String} {filled : Money} {lacking pieces : List Money}
  {whole amount : Money} {al : OMap String Money} {book book' : OMap (String × Contract) Money}

/-- The pieces of an increment against what each strategy order lacks. -/
theorem MirrorTicketState.Ok.split (h : t.Ok key) (hwhole : ∃ n : ℤ, filled.val = n)
    (hgt : t.filled.val < filled.val) (hle : filled.val ≤ t.queued.quantity.val)
    (hlack : t.queued.allocations.mapM (fun a => Ops.sub (Unrounded D) a.quantity
      ((t.allocated.get a.strategyOrderId).getD .zero)) = .ok lacking)
    (hrest : Ops.sub (Unrounded D) t.queued.quantity t.filled = .ok whole)
    (hinc : Ops.sub (Unrounded D) filled t.filled = .ok amount)
    (hpieces : proRata (Unrounded D) lacking whole amount = .ok pieces) :
    total pieces = filled.val - t.filled.val ∧ List.Forall₂ (fun (a : MirrorAllocation) (p : Money) =>
      (∃ n : ℤ, p.val = n) ∧ 0 ≤ p.val ∧ given t.allocated a.strategyOrderId + p.val ≤ a.quantity.val)
      t.queued.allocations pieces := by
  have hlacks := (List.forall₂_and_left _ _).mpr ⟨fun a ha => ha, mapM_ok hlack⟩
  have hval : List.Forall₂ (fun (a : MirrorAllocation) (l : Money) => a ∈ t.queued.allocations ∧
      l.val = a.quantity.val - given t.allocated a.strategyOrderId) t.queued.allocations lacking :=
    hlacks.imp fun a l hl => ⟨hl.1, Ops.unrounded_sub hl.2⟩
  have hweights : ∀ w ∈ lacking, (∃ n : ℤ, w.val = n) ∧ 0 ≤ w.val := by
    intro w hw
    obtain ⟨a, -, ha, hwval⟩ := forall₂_right hval w hw
    obtain ⟨⟨n, hn⟩, -, hgiven⟩ := h.each a ha
    obtain ⟨q, hq⟩ := Money.val_whole a.quantity_whole
    exact ⟨⟨q - n, by rw [hwval, hq, hn]; push_cast; rfl⟩, by rw [hwval]; linarith⟩
  have htotal : total lacking = whole.val := by
    rw [total_of_differences (hval.imp fun _ _ hl => hl.2), Ops.unrounded_sub hrest, h.sum, ← h.quantity,
      total, List.map_map]
    rfl
  obtain ⟨n, hn⟩ := hwhole
  obtain ⟨k, hk⟩ : ∃ k : ℤ, t.filled.val = k := by
    rw [← h.sum]
    refine sum_whole fun x hx => ?_
    obtain ⟨a, ha, rfl⟩ := List.mem_map.mp hx
    exact (h.each a ha).1
  have hamount := Ops.unrounded_sub hinc
  obtain ⟨htot, hp⟩ := proRata_spec hweights (by rw [← hval.length_eq]; exact h.vec) htotal.symm
    ⟨n - k, by rw [hamount, hn, hk]; push_cast; rfl⟩ (by linarith)
    (by rw [hamount, Ops.unrounded_sub hrest]; linarith) hpieces
  refine ⟨by rw [htot, hamount], (forall₂_trans hval hp).imp ?_⟩
  rintro a p ⟨l, ⟨-, hl⟩, hpiece⟩
  exact ⟨hpiece.whole, hpiece.nonneg, by have := hpiece.le_weight; linarith⟩

/-- A filled ticket: still in order, and its contracts went into the book. -/
theorem MirrorTicketState.Ok.fill (h : t.Ok key) (price : Money)
    (hle : filled.val ≤ t.queued.quantity.val)
    (htotal : total pieces = filled.val - t.filled.val)
    (hpieces : List.Forall₂ (fun (a : MirrorAllocation) (p : Money) => (∃ n : ℤ, p.val = n) ∧
      0 ≤ p.val ∧ given t.allocated a.strategyOrderId + p.val ≤ a.quantity.val)
      t.queued.allocations pieces)
    (hsplit : (t.queued.allocations.zip pieces).foldlM (allocateFill (Unrounded D) t.queued)
      (t.allocated, book) = .ok (al, book')) :
    MirrorTicketState.Ok key { t with filled := filled, avgPrice := some price, allocated := al } ∧
    ∀ a c, bookQty book' a c = bookQty book a c - t.contracts a c.hk + MirrorTicketState.contracts
      { t with filled := filled, avgPrice := some price, allocated := al } a c.hk := by
  obtain ⟨hgiven, htable, hbook⟩ := allocateFills_spec hsplit
  have hfst : (t.queued.allocations.zip pieces).map (·.1) = t.queued.allocations :=
    List.map_fst_zip hpieces.length_eq.le
  have hsnd : (t.queued.allocations.zip pieces).map (·.2) = pieces :=
    List.map_snd_zip hpieces.length_eq.ge
  have hzip := fun (e : MirrorAllocation × Money) (he : e ∈ t.queued.allocations.zip pieces) =>
    List.forall₂_zip hpieces (a := e.1) (b := e.2) he
  generalize hps : t.queued.allocations.zip pieces = ps at *
  have hids : (ps.map (·.1.strategyOrderId)).Nodup := by
    have := h.ids
    rwa [← hfst, List.map_map] at this
  have hown : ∀ e ∈ ps, given al e.1.strategyOrderId = given t.allocated e.1.strategyOrderId + e.2.val :=
    fun e he => by rw [hgiven, sum_own hids he]
  have hover : ∀ {f : MirrorAllocation → ℚ}, (t.queued.allocations.map f).sum = (ps.map fun e => f e.1).sum := by
    intro f
    rw [← hfst, List.map_map]
    rfl
  refine ⟨⟨h.key_eq, h.ids, h.vec, h.quantity, hle, ?_, ?_, ?_⟩, fun a c => ?_⟩
  · calc (t.queued.allocations.map fun a => given al a.strategyOrderId).sum
        = (ps.map fun e => given t.allocated e.1.strategyOrderId + e.2.val).sum := by
          rw [hover, List.map_congr_left hown]
      _ = (t.queued.allocations.map fun a => given t.allocated a.strategyOrderId).sum + total pieces := by
          rw [List.sum_map_add, hover, ← hsnd, total, List.map_map]
          rfl
      _ = filled.val := by
          rw [h.sum, htotal]
          ring
  · rw [htable, h.table, hsnd, htotal]
    ring
  · intro a ha
    rw [← hfst] at ha
    obtain ⟨e, he, rfl⟩ := List.mem_map.mp ha
    obtain ⟨⟨n, hn⟩, hnn, hcap⟩ := hzip e he
    obtain ⟨⟨k, hk⟩, hpos, -⟩ := h.each e.1 (hfst ▸ List.mem_map_of_mem he)
    rw [hown e he]
    exact ⟨⟨k + n, by rw [hk, hn]; push_cast; rfl⟩, by linarith, hcap⟩
  · have hnew : MirrorTicketState.contracts
        { t with filled := filled, avgPrice := some price, allocated := al } a c.hk =
        t.contracts a c.hk + pieceContracts t.queued ps a c.hk := by
      rw [MirrorTicketState.contracts, MirrorTicketState.contracts, hover, hover, pieceContracts,
        ← List.sum_map_add]
      refine congrArg List.sum (List.map_congr_left fun e he => ?_)
      dsimp only
      split
      · rw [hown e he, mul_add]
      · rw [add_zero]
    rw [hbook, hnew]
    ring

end Fill

/-! ## The mirror as a whole -/

/-- A venue's mirror: every ticket in order, the book what the tickets gave, each strategy order
on one ticket at most or refused, and the venue's order ids one for one with the tickets that have
one. -/
structure MirrorState.Ok (m : MirrorState) : Prop where
  tickets : ∀ key t, m.tickets.get key = some t → t.Ok key
  book : ∀ account c, bookQty m.book account c =
    m.tickets.sumBy fun t => t.contracts account c.hk
  queued : ∀ id key, m.queuedOrders.get id = some key ↔
    ∃ t, m.tickets.get key = some t ∧ ∃ a ∈ t.queued.allocations, a.strategyOrderId = id
  apart : ∀ id, m.queuedOrders.get id = none ∨ m.refusedOrders.get id = none
  orderIds : ∀ v key, m.orderIds.get v = some key ↔
    ∃ t, m.tickets.get key = some t ∧ t.venueOrderId = some v

theorem MirrorState.Ok.new : MirrorState.new.Ok where
  tickets key t h := by simp [MirrorState.new] at h
  book account c := by simp [MirrorState.new, bookQty]
  queued id key := by simp [MirrorState.new]
  apart id := Or.inl rfl
  orderIds v key := by simp [MirrorState.new]

section Steps

variable {m m' : MirrorState}

theorem mirrorTicket_ok {key what : String} {t : MirrorTicketState}
    (h : mirrorTicket m key what = .ok t) : m.tickets.get key = some t := by
  unfold mirrorTicket at h
  split at h
  · rename_i hget
    cases h
    exact hget
  · cases h

theorem MirrorState.Ok.tickets_put {key : String} {t' : MirrorTicketState} (h : m.Ok)
    (ht' : t'.Ok key) : ∀ k x, (m.tickets.put key t').get k = some x → x.Ok k := by
  intro k x hx
  rw [OMap.get_put] at hx
  split at hx
  · rename_i hk
    cases hx
    exact hk ▸ ht'
  · exact h.tickets k x hx

/-- A ticket written back with the contents it was queued with. -/
theorem MirrorState.Ok.queued_put {key : String} {t t' : MirrorTicketState} (h : m.Ok)
    (ht : m.tickets.get key = some t) (hq : t'.queued = t.queued) (id k : String) :
    m.queuedOrders.get id = some k ↔ ∃ x, (m.tickets.put key t').get k = some x ∧
      ∃ a ∈ x.queued.allocations, a.strategyOrderId = id := by
  rw [h.queued, OMap.get_put]
  by_cases hk : k = key
  · rw [if_pos hk, hk, ht]
    simp [hq]
  · rw [if_neg hk]

/-! ## Queued and refused -/

theorem MirrorTicketState.Ok.new {q : MirrorQueued} (hvec : q.allocations.length < vecLimit)
    (hsum : total (q.allocations.map (·.quantity)) = q.quantity.val)
    (hq : checkMirrorQueued q = .ok ()) : MirrorTicketState.Ok q.ticketKey (.new q) := by
  have hgiven : ∀ id, given OMap.empty id = 0 := fun id => by simp [given]
  simp only [checkMirrorQueued, bind_eq_ok, refuseIf_eq_ok] at hq
  obtain ⟨-, -, -, -, -, -, -, -, -, -, -, -, -, hids, -⟩ := hq
  refine ⟨rfl, not_not.mp hids, hvec, hsum, ?_, ?_, ?_, fun a ha => ?_⟩
  · rw [MirrorTicketState.new, Money.val_zero, ← hsum]
    refine List.sum_nonneg fun x hx => ?_
    obtain ⟨p, hp, rfl⟩ := List.mem_map.mp hx
    obtain ⟨a, -, rfl⟩ := List.mem_map.mp hp
    exact (Money.val_pos_iff.mpr a.quantity_pos).le
  · simp [MirrorTicketState.new, hgiven]
  · simp [MirrorTicketState.new]
  · simp only [MirrorTicketState.new, hgiven]
    exact ⟨⟨0, by simp⟩, le_rfl, (Money.val_pos_iff.mpr a.quantity_pos).le⟩

theorem foldl_put_get {as : List MirrorAllocation} {key : String} {orders : OMap String String}
    (id : String) : (as.foldl (fun m a => m.put a.strategyOrderId key) orders).get id =
      if id ∈ as.map (·.strategyOrderId) then some key else orders.get id := by
  induction as generalizing orders with
  | nil => simp
  | cons a as ih =>
      rw [List.foldl_cons, ih, OMap.get_put, List.map_cons]
      by_cases hmem : id ∈ as.map (·.strategyOrderId)
      · simp [hmem]
      · by_cases hid : id = a.strategyOrderId
        · simp [hid]
        · simp [hmem, hid]

theorem onQueued_ok {q : MirrorQueued} (h : m.Ok) (hvec : q.allocations.length < vecLimit)
    (hsum : total (q.allocations.map (·.quantity)) = q.quantity.val)
    (hq : checkMirrorQueued q = .ok ()) (hm : onQueued m q = .ok m') : m'.Ok := by
  have hnew := MirrorTicketState.Ok.new hvec hsum hq
  simp only [onQueued, bind_eq_ok] at hm
  obtain ⟨_, -, hm⟩ := hm
  split at hm
  · simp only [bind_eq_ok, pure_eq_ok] at hm
    obtain ⟨_, -, rfl⟩ := hm
    exact h
  · rename_i hnone
    simp only [bind_eq_ok, pure_eq_ok] at hm
    obtain ⟨_, hcheck, rfl⟩ := hm
    -- no strategy order of the ticket was queued or refused before
    have hfresh : ∀ a ∈ q.allocations, m.queuedOrders.get a.strategyOrderId = none ∧
        m.refusedOrders.get a.strategyOrderId = none := by
      intro a ha
      have hone := forM_ok hcheck a ha
      unfold checkAllocation at hone
      split at hone
      · cases hone
      · rename_i hqueued
        rw [refuseIf_eq_ok] at hone
        exact ⟨hqueued, by simpa [OMap.contains] using hone⟩
    have hids : ∀ {id}, id ∈ q.allocations.map (·.strategyOrderId) →
        m.queuedOrders.get id = none ∧ m.refusedOrders.get id = none := by
      intro id hid
      obtain ⟨a, ha, rfl⟩ := List.mem_map.mp hid
      exact hfresh a ha
    refine ⟨h.tickets_put hnew, fun account c => ?_, fun id key => ?_, fun id => ?_, fun v key => ?_⟩
    · have hzero : (MirrorTicketState.new q).contracts account c.hk = 0 := by
        refine List.sum_eq_zero fun x hx => ?_
        obtain ⟨a, -, rfl⟩ := List.mem_map.mp hx
        simp [MirrorTicketState.new, given]
      rw [h.book, OMap.put, OMap.sumBy_insert_of_none _ _ _ hnone, hzero, add_zero]
    · rw [foldl_put_get, OMap.get_put]
      by_cases hid : id ∈ q.allocations.map (·.strategyOrderId)
      · rw [if_pos hid]
        by_cases hkey : key = q.ticketKey
        · rw [if_pos hkey, hkey]
          simpa [MirrorTicketState.new] using hid
        · rw [if_neg hkey, ← h.queued, (hids hid).1]
          simp [Ne.symm hkey]
      · rw [if_neg hid, h.queued]
        by_cases hkey : key = q.ticketKey
        · rw [if_pos hkey, hkey, hnone]
          simpa [MirrorTicketState.new] using hid
        · rw [if_neg hkey]
    · dsimp only
      rw [foldl_put_get]
      split
      · rename_i hid
        exact Or.inr (hids hid).2
      · exact h.apart id
    · rw [h.orderIds, OMap.get_put]
      by_cases hkey : key = q.ticketKey
      · rw [if_pos hkey, hkey, hnone]
        simp [MirrorTicketState.new]
      · rw [if_neg hkey]

theorem onRefused_ok {r : MirrorRefused} (h : m.Ok) (hm : onRefused m r = .ok m') : m'.Ok := by
  simp only [onRefused, bind_eq_ok] at hm
  obtain ⟨_, -, hm⟩ := hm
  split at hm
  · cases hm
  · rename_i hqueued
    split at hm
    · cases hm
      exact h
    · cases hm
      refine ⟨h.tickets, h.book, h.queued, fun id => ?_, h.orderIds⟩
      dsimp only
      rw [OMap.get_put]
      split
      · rename_i hid
        exact Or.inl (hid ▸ hqueued)
      · exact h.apart id

/-! ## Acknowledged -/

theorem onAck_ok {a : MirrorAck} (h : m.Ok) (hm : onAck m a = .ok m') : m'.Ok := by
  simp only [onAck, bind_eq_ok, pure_eq_ok] at hm
  obtain ⟨_, -, t, ht, _, hid, rfl⟩ := hm
  have ht := mirrorTicket_ok ht
  have hok := h.tickets _ _ ht
  have hok' : ∀ ack venue status closed, MirrorTicketState.Ok a.ticketKey
      { t with ack := ack, venueOrderId := venue, bookStatus := status, closed := closed } :=
    fun _ _ _ _ => ⟨hok.key_eq, hok.ids, hok.vec, hok.quantity, hok.filled_le, hok.sum, hok.table, hok.each⟩
  refine ⟨h.tickets_put (hok' _ _ _ _), fun account c => ?_, h.queued_put ht rfl, h.apart, fun v key => ?_⟩
  · rw [h.book, OMap.put, OMap.sumBy_insert_of_get _ _ _ ht]
    exact (sub_add_cancel _ _).symm
  · dsimp only
    rw [OMap.get_put]
    cases hv0 : a.venueOrderId with
    | none =>
        dsimp only
        rw [h.orderIds, Option.none_or]
        by_cases hk : key = a.ticketKey
        · rw [if_pos hk, hk, ht]
          simp
        · rw [if_neg hk]
    | some v0 =>
        -- the order id is new, or this ticket's own already
        rw [ackOrderId, hv0] at hid
        simp only [bind_eq_ok, refuseIf_eq_ok, not_not] at hid
        obtain ⟨_, hcur, howner⟩ := hid
        dsimp only
        rw [OMap.get_put, Option.some_or]
        by_cases hv : v = v0
        · rw [if_pos hv, hv]
          by_cases hk : key = a.ticketKey
          · rw [if_pos hk, hk]
            simp
          · rw [if_neg hk, ← h.orderIds]
            have hne : m.orderIds.get v0 ≠ some key := by
              intro hget
              rw [hget, Option.getD_some] at howner
              exact hk howner
            simp [hne, Ne.symm hk]
        · rw [if_neg hv, h.orderIds]
          by_cases hk : key = a.ticketKey
          · rw [if_pos hk, hk, ht]
            have hne : t.venueOrderId ≠ some v := by
              intro hget
              rw [hget, Option.getD_some] at hcur
              exact hv hcur
            simp [hne, Ne.symm hv]
          · rw [if_neg hk]

/-! ## Filled -/

theorem onMirrorFill_ok {f : MirrorFill} (h : m.Ok) (hwhole : ∃ n : ℤ, f.filled.val = n)
    (hm : onMirrorFill (Unrounded D) m f = .ok m') : m'.Ok := by
  simp only [onMirrorFill, bind_eq_ok] at hm
  obtain ⟨_, -, t, ht, _, -, _, hover, _, hdown, hm⟩ := hm
  have ht := mirrorTicket_ok ht
  have hok := h.tickets _ _ ht
  split at hm
  · simp only [bind_eq_ok, pure_eq_ok] at hm
    obtain ⟨_, -, rfl⟩ := hm
    exact h
  · rename_i hne
    simp only [bind_eq_ok, pure_eq_ok] at hm
    obtain ⟨lacking, hlack, whole, hrest, amount, hinc, pieces, hpieces, ⟨al, book'⟩, hsplit, rfl⟩ := hm
    rw [refuseIf_eq_ok] at hover hdown
    simp only [Money.gt_iff, Money.lt_iff, not_lt, Money.eqNum_iff] at hover hdown hne
    have hgt : t.filled.val < f.filled.val := lt_of_le_of_ne hdown (Ne.symm hne)
    obtain ⟨htotal, hall⟩ := hok.split hwhole hgt hover hlack hrest hinc hpieces
    obtain ⟨hok', hbook⟩ := hok.fill f.avgPrice hover htotal hall hsplit
    refine ⟨h.tickets_put hok', fun account c => ?_, h.queued_put ht rfl, h.apart, fun v key => ?_⟩
    · rw [hbook, h.book, OMap.put, OMap.sumBy_insert_of_get _ _ _ ht]
    · rw [h.orderIds, OMap.get_put]
      by_cases hk : key = f.ticketKey
      · rw [if_pos hk, hk, ht]
        simp
      · rw [if_neg hk]

end Steps

/-! ## Runs -/

/-- A mirror event of which no sum, difference or product is rounded, the allocations' own total
included, and whose allocations fit a vector. -/
def mirrorExact (D : RustDecimal) (st : AccountState) (e : Event) : Bool :=
  match e.payload with
  | .mQueued q => q.allocations.length < vecLimit &&
      total (q.allocations.map (·.quantity)) = q.quantity.val
  | .mFill f => (onMirrorFill (Unrounded D) st.mirror f).toOption.isSome
  | _ => true

theorem onFill_mirror {A : Arith} {st st' : AccountState} {f : Fill} (h : onFill A st f = .ok st') :
    st'.mirror = st.mirror := by
  have hrecord : ∀ {s s' : AccountState} {o : Order} {leg : Option (Int × ComboLeg)},
      recordFilled A s o leg f = .ok s' → s'.mirror = s.mirror := by
    intro s s' o leg h
    unfold recordFilled at h
    split at h
    · simp only [bind_eq_ok, pure_eq_ok] at h
      obtain ⟨_, -, rfl⟩ := h
      rfl
    · simp only [bind_eq_ok] at h
      obtain ⟨_, -, _, -, _, -, _, -, h⟩ := h
      split at h
      · cases h
        rfl
      · cases h
  have hfill : ∀ {s s' : AccountState} {o : Order} {m : Money},
      fillOrder s o f m = .ok s' → s'.mirror = s.mirror := by
    intro s s' o m h
    simp only [fillOrder, bind_eq_ok, pure_eq_ok] at h
    obtain ⟨_, -, _, -, _, -, rfl⟩ := h
    split <;> rfl
  simp only [onFill, bind_eq_ok, pure_eq_ok] at h
  obtain ⟨_, -, _, -, _, -, _, -, _, -, _, -, _, -, _, -, _, -, _, -, s, hs, s', hs', _, -, _, -, _, -, rfl⟩ := h
  have hmirror := hrecord hs
  exact (hfill hs').trans hmirror

/-- An event of the ledger proper leaves the mirror alone. -/
theorem dispatch_mirror {A : Arith} {st st' : AccountState} {e : Event}
    (h : dispatch A st e = .ok st') : st'.mirror = st.mirror ∨
      (∃ q, e.payload = .mQueued q ∧ onQueued st.mirror q = .ok st'.mirror) ∨
      (∃ r, e.payload = .mRefused r ∧ onRefused st.mirror r = .ok st'.mirror) ∨
      (∃ a, e.payload = .mAck a ∧ onAck st.mirror a = .ok st'.mirror) ∨
      ∃ f, e.payload = .mFill f ∧ onMirrorFill A st.mirror f = .ok st'.mirror := by
  have hstep : ∀ {kind : EventKind} {step : MirrorState → R MirrorState},
      mirrorStep st kind step = .ok st' → step st.mirror = .ok st'.mirror := by
    intro kind step h
    unfold mirrorStep at h
    split at h
    · rename_i m hm
      cases h
      exact hm
    · split at h
      · simp [fe] at h
      · cases h
  unfold dispatch at h
  split at h
  case h_1 =>
    split at h
    · cases h; exact Or.inl rfl
    · simp at h
  case h_3 =>
    simp only [onOrdersCreated, bind_eq_ok, pure_eq_ok] at h
    obtain ⟨_, -, rfl⟩ := h
    exact Or.inl rfl
  case h_5 =>
    simp only [onOrderSubmitted, bind_eq_ok, pure_eq_ok] at h
    obtain ⟨_, -, _, -, rfl⟩ := h
    exact Or.inl rfl
  case h_6 =>
    simp only [onOrderUpdated, bind_eq_ok, pure_eq_ok] at h
    obtain ⟨_, -, _, -, _, -, _, -, _, -, rfl⟩ := h
    exact Or.inl rfl
  case h_7 =>
    split at h
    · simp only [onOrderState, bind_eq_ok, pure_eq_ok] at h
      obtain ⟨_, -, _, -, rfl⟩ := h
      exact Or.inl rfl
    · simp only [bind_eq_ok, pure_eq_ok] at h
      obtain ⟨_, -, rfl⟩ := h
      exact Or.inl rfl
  case h_8 =>
    simp only [bind_eq_ok, pure_eq_ok] at h
    obtain ⟨_, -, rfl⟩ := h
    exact Or.inl rfl
  case h_9 => exact Or.inl (onFill_mirror h)
  case h_10 =>
    simp only [bind_eq_ok, pure_eq_ok] at h
    obtain ⟨_, -, rfl⟩ := h
    exact Or.inl rfl
  case h_13 =>
    simp only [onHaltCleared, bind_eq_ok, pure_eq_ok] at h
    obtain ⟨_, -, rfl⟩ := h
    exact Or.inl rfl
  case h_15 =>
    simp only [onLifecycle, bind_eq_ok, pure_eq_ok] at h
    obtain ⟨_, -, _, -, _, -, _, -, _, -, _, -, _, -, _, -, rfl⟩ := h
    exact Or.inl rfl
  case h_16 q hp => exact Or.inr (Or.inl ⟨q, hp, hstep h⟩)
  case h_17 r hp => exact Or.inr (Or.inr (Or.inl ⟨r, hp, hstep h⟩))
  case h_18 a hp => exact Or.inr (Or.inr (Or.inr (Or.inl ⟨a, hp, hstep h⟩)))
  case h_19 f hp => exact Or.inr (Or.inr (Or.inr (Or.inr ⟨f, hp, hstep h⟩)))
  case h_20 => simp at h
  all_goals cases h; exact Or.inl rfl

theorem applyEvent_mirrorOk {st st' : AccountState} {e : Event} (hexact : mirrorExact D st e = true)
    (hok : st.mirror.Ok) (h : applyEvent (.code D) st e = .ok st') : st'.mirror.Ok := by
  have hbuilt := e.built
  unfold mirrorExact at hexact
  simp only [applyEvent, bind_eq_ok, pure_eq_ok] at h
  obtain ⟨st₁, h, rfl⟩ := h
  rcases dispatch_mirror h with h | ⟨q, hp, h⟩ | ⟨r, hp, h⟩ | ⟨a, hp, h⟩ | ⟨f, hp, h⟩
  · rw [← h] at hok
    exact hok
  · rw [hp] at hexact hbuilt
    simp only [Bool.and_eq_true, decide_eq_true_eq] at hexact
    exact onQueued_ok hok hexact.1 hexact.2 hbuilt h
  · exact onRefused_ok hok h
  · exact onAck_ok hok h
  · rw [hp] at hexact hbuilt
    obtain ⟨m, hm⟩ := Option.isSome_iff_exists.mp hexact
    rw [toOption_eq_some] at hm
    have hsame := onMirrorFill_refuses (Arith.exactButDiv_le _) _ _ _ hm
    rw [h] at hsame
    cases hsame
    refine onMirrorFill_ok hok ?_ hm
    simp only [checkPayload, checkMirrorFill, requireWhole, bind_eq_ok, refuseIf_eq_ok] at hbuilt
    obtain ⟨_, -, _, -, _, -, _, hw, -⟩ := hbuilt
    refine Money.val_whole ?_
    simp only [Bool.or_eq_true, Bool.not_eq_true', not_or] at hw
    simpa using hw.1

theorem run_mirrorOk {es : List Event} {st st' : AccountState}
    (hexact : everyStep (.code D) (mirrorExact D) st es = true) (hok : st.mirror.Ok)
    (h : es.foldlM (applyEvent (.code D)) st = .ok st') : st'.mirror.Ok := by
  induction es generalizing st with
  | nil =>
      cases h
      exact hok
  | cons e es ih =>
      simp only [List.foldlM_cons, bind_eq_ok] at h
      obtain ⟨st₁, h₁, h⟩ := h
      obtain ⟨hexact, hrest⟩ := everyStep_cons hexact h₁
      exact ih hrest (applyEvent_mirrorOk hexact hok h₁) h

end TradeEngine
