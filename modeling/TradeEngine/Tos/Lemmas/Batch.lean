import Mathlib.Data.List.ReduceOption
import TradeEngine.Tos.Lemmas.Cover

/-!
# A batch against the book

What the cover rule has let through so far, and how low the venue's fills of it can take each holding.
-/

namespace TradeEngine.Tos

open Lib

variable {D : RustDecimal}

/-! ## One amount -/

theorem Keeps.lower {x r s : ℚ} (h : Keeps x r) (hs : s ≤ x) (hhigh : s < 10 ^ 28) (hlow : -10 ^ 28 < s) : s ≤ r := by
  by_cases habs : |x| < 10 ^ 28
  · rw [h.exact habs]
    exact hs
  · have hx : 0 ≤ x := by
      by_contra hneg
      rw [abs_of_neg (not_le.1 hneg)] at habs
      linarith
    have hlarge := h.large (not_lt.1 habs)
    rw [abs_of_nonneg (h.nonneg.2 hx)] at hlarge
    linarith

theorem Keeps.below {x r : ℚ} (h : Keeps x r) (hx : x < 10 ^ 28) : r = x ∨ (x ≤ -10 ^ 28 ∧ r ≤ -10 ^ 28) := by
  by_cases habs : |x| < 10 ^ 28
  · exact .inl (h.exact habs)
  · have hneg : x < 0 := by
      by_contra hpos
      rw [abs_of_nonneg (not_lt.1 hpos)] at habs
      exact habs hx
    have hr : r < 0 := not_le.1 (mt h.nonneg.1 (not_le.2 hneg))
    have hlarge := h.large (not_lt.1 habs)
    rw [abs_of_neg hr] at hlarge
    rw [abs_of_neg hneg] at habs
    exact .inr ⟨by linarith, by linarith⟩

/-! ## Filling an order -/

variable (D) in
/-- One fill of a single-leg order into the holdings. -/
def fillOrder (h : Book) (f : Order × Money) : R Book :=
  match f.1.instrument with
  | .single c =>
    match f.1.side with
    | .buy => h.add (.code D) c f.2
    | .sell => h.sell (.code D) c f.2
  | .combo _ => pure h

/-- What an order may sell of a holding of shares or of a call. -/
def soldOf (c : Contract) (o : Order) : ℚ :=
  match soldOfOrder o with
  | some (d, q) => if d = c then q.val else 0
  | none => 0

/-- Shares and calls, the holdings that count for cover. -/
def Counts : Contract → Prop
  | .equity _ => True
  | .option c => c.right = .call
  | .future _ => False

theorem soldOfOrder_some {o : Order} {c : Contract} {q : Money} (h : soldOfOrder o = some (c, q)) :
    q = o.quantity ∧ Counts c := by
  unfold soldOfOrder at h
  split at h
  · cases h
  · split at h
    · obtain ⟨rfl, rfl⟩ := Prod.mk.inj (Option.some.inj h)
      exact ⟨rfl, trivial⟩
    · rename_i d _
      by_cases hd : d.right = .call
      · rw [if_pos hd] at h
        obtain ⟨rfl, rfl⟩ := Prod.mk.inj (Option.some.inj h)
        exact ⟨rfl, hd⟩
      · rw [if_neg hd] at h
        cases h
    · cases h

theorem soldOf_some {o : Order} {d : Contract} {q : Money} (h : soldOfOrder o = some (d, q)) (c : Contract) :
    soldOf c o = if d = c then q.val else 0 := by
  rw [soldOf, h]

theorem soldOf_nonneg {o : Order} (h : 0 ≤ o.quantity.val) (c : Contract) : 0 ≤ soldOf c o := by
  cases hsold : soldOfOrder o with
  | none =>
    rw [soldOf, hsold]
  | some e =>
    rw [soldOf_some hsold, (soldOfOrder_some hsold).1]
    split_ifs
    · exact h
    · exact le_rfl

theorem soldOf_sell {o : Order} {c : Contract} (hi : o.instrument = .single c) (hside : o.side = .sell) (hc : Counts c) :
    soldOf c o = o.quantity.val := by
  cases c with
  | equity s => simp [soldOf, soldOfOrder, hi, hside]
  | option c =>
    have hcall : c.right = .call := hc
    simp [soldOf, soldOfOrder, hi, hside, hcall]
  | future f => exact hc.elim

theorem Book.have_add {h h' : Book} {c : Contract} {q : Money} (hadd : h.add (.code D) c q = .ok h') : ∃ r,
    Ops.add (.code D) (h.have c) q = .ok r ∧ h' = h.insert c.hk c r := by
  simp only [Book.add, bind_eq_ok, pure_eq_ok] at hadd
  obtain ⟨r, hr, rfl⟩ := hadd
  exact ⟨r, hr, rfl⟩

theorem Book.have_sell {h h' : Book} {c : Contract} {q : Money} (hsell : h.sell (.code D) c q = .ok h') : ∃ r,
    Ops.sub (.code D) (h.have c) q = .ok r ∧ h' = h.insert c.hk c r := by
  simp only [Book.sell, bind_eq_ok, pure_eq_ok] at hsell
  obtain ⟨r, hr, rfl⟩ := hsell
  exact ⟨r, hr, rfl⟩

theorem fillOrder_whole {h h' : Book} {f : Order × Money} (hw : WholeHeld h) (hf : Whole f.2.val)
    (hfill : fillOrder D h f = .ok h') : WholeHeld h' := by
  unfold fillOrder at hfill
  split at hfill
  · split at hfill
    · obtain ⟨r, hr, rfl⟩ := Book.have_add hfill
      exact hw.insert _ (Keeps.add (hw.have _) hf hr).whole
    · obtain ⟨r, hr, rfl⟩ := Book.have_sell hfill
      exact hw.insert _ (Keeps.sub (hw.have _) hf hr).whole
  · obtain rfl := Except.ok.inj hfill
    exact hw

theorem fillOrder_keyed {h h' : Book} {f : Order × Money} (hk : Keyed h) (hfill : fillOrder D h f = .ok h') : Keyed h' := by
  unfold fillOrder at hfill
  split at hfill
  · split at hfill
    · obtain ⟨r, hr, rfl⟩ := Book.have_add hfill
      exact hk.insert _ r
    · obtain ⟨r, hr, rfl⟩ := Book.have_sell hfill
      exact hk.insert _ r
  · obtain rfl := Except.ok.inj hfill
    exact hk

/-- A part of an order: whole, and at most its quantity. -/
structure PartOf (f : Order × Money) : Prop where
  whole : Whole f.2.val
  nonneg : 0 ≤ f.2.val
  le : f.2.val ≤ f.1.quantity.val

theorem fillOrder_lower {h h' : Book} {f : Order × Money} {c : Contract} {s : ℚ} (hc : Counts c) (hw : WholeHeld h)
    (hf : PartOf f) (hs : s ≤ (h.have c).val) (hhigh : s < 10 ^ 28) (hlow : -10 ^ 28 < s - soldOf c f.1)
    (hfill : fillOrder D h f = .ok h') : s - soldOf c f.1 ≤ (h'.have c).val := by
  have hquantity : 0 ≤ f.1.quantity.val := hf.nonneg.trans hf.le
  have hsold := soldOf_nonneg hquantity c
  unfold fillOrder at hfill
  split at hfill
  · rename_i d hd
    split at hfill
    · obtain ⟨r, hr, rfl⟩ := Book.have_add hfill
      rw [have_insert]
      split_ifs with hcd
      · apply (Keeps.add (hw.have _) hf.whole hr).lower _ (by linarith) hlow
        rw [hcd] at hs
        linarith [hf.nonneg]
      · linarith
    · rename_i hside
      obtain ⟨r, hr, rfl⟩ := Book.have_sell hfill
      rw [have_insert]
      split_ifs with hcd
      · apply (Keeps.sub (hw.have _) hf.whole hr).lower _ (by linarith) hlow
        subst hcd
        rw [soldOf_sell hd hside hc]
        linarith [hf.le]
      · linarith
  · obtain rfl := Except.ok.inj hfill
    linarith

/-- The fills of a list, in order, take a holding no lower than the orders sell of it. -/
theorem fillOrders_lower {h h' : Book} {fs : List (Order × Money)} {c : Contract} {s : ℚ} (hc : Counts c) (hw : WholeHeld h)
    (hfs : ∀ f ∈ fs, PartOf f) (hs : s ≤ (h.have c).val) (hhigh : s < 10 ^ 28)
    (hlow : -10 ^ 28 < s - (fs.map fun f => soldOf c f.1).sum) (hfill : fs.foldlM (fillOrder D) h = .ok h') :
    s - (fs.map fun f => soldOf c f.1).sum ≤ (h'.have c).val := by
  induction fs generalizing h s with
  | nil =>
    obtain rfl := Except.ok.inj hfill
    simpa using hs
  | cons f fs ih =>
    rw [List.foldlM_cons, bind_eq_ok] at hfill
    obtain ⟨mid, hmid, hfill⟩ := hfill
    have hf := hfs f (by simp)
    have hrest : ∀ g ∈ fs, PartOf g := fun g hg => hfs g (by simp [hg])
    have hsold := soldOf_nonneg (hf.nonneg.trans hf.le) c
    have hsum : 0 ≤ (fs.map fun f => soldOf c f.1).sum := by
      apply List.sum_nonneg
      intro x hx
      obtain ⟨g, hg, rfl⟩ := List.mem_map.1 hx
      exact soldOf_nonneg ((hrest g hg).nonneg.trans (hrest g hg).le) c
    rw [List.map_cons, List.sum_cons] at hlow ⊢
    have hstep := fillOrder_lower hc hw hf hs hhigh (by linarith) hmid
    have hrun := ih (fillOrder_whole hw hf.whole hmid) hrest hstep (by linarith) (by linarith) hfill
    linarith

theorem fillOrders_kept {h h' : Book} {fs : List (Order × Money)} (hk : Keyed h) (hw : WholeHeld h)
    (hfs : ∀ f ∈ fs, PartOf f) (hfill : fs.foldlM (fillOrder D) h = .ok h') : Keyed h' ∧ WholeHeld h' := by
  apply foldlM_invariant (P := fun h => Keyed h ∧ WholeHeld h) _ hfill ⟨hk, hw⟩
  intro b f b' hf hfill hb
  exact ⟨fillOrder_keyed hb.1 hfill, fillOrder_whole hb.2 (hfs f hf).whole hfill⟩

/-! ## What the rule lets through -/

/-- The book after the sells let through, filled in full. -/
structure Drawn (D : RustDecimal) (held : Book) (u : String) (todo : List Order) (h : Book) : Prop where
  run : (todo.map soldOfOrder).reduceOption.foldlM (fun h gone => Book.sell (.code D) h gone.1 gone.2) held = .ok h
  keyed : Keyed h
  whole : WholeHeld h
  zero : ∃ found, uncovered (.code D) h = .ok found ∧ (lookup found u).val = 0
  left : ∀ c, (held.have c).val < 10 ^ 28 → (h.have c).val < 10 ^ 28 ∧
    ((h.have c).val = (held.have c).val - (todo.map (soldOf c)).sum ∨ (h.have c).val ≤ -10 ^ 28)

theorem Drawn.start {held : Book} {u : String} {found : List (String × Money)} (hk : Keyed held) (hw : WholeHeld held)
    (hfound : uncovered (.code D) held = .ok found) (hzero : (lookup found u).val = 0) : Drawn D held u [] held where
  run := rfl
  keyed := hk
  whole := hw
  zero := ⟨found, hfound, hzero⟩
  left c hc := ⟨hc, .inl (by simp)⟩

theorem Drawn.none {held h : Book} {u : String} {todo : List Order} {o : Order} (hd : Drawn D held u todo h)
    (ho : soldOfOrder o = none) : Drawn D held u (todo ++ [o]) h where
  run := by
    rw [List.map_append, List.map_singleton, ho, List.reduceOption_append, List.reduceOption_singleton]
    simpa using hd.run
  keyed := hd.keyed
  whole := hd.whole
  zero := hd.zero
  left c hc := by
    have hsold : soldOf c o = 0 := by rw [soldOf, ho]
    simpa [hsold] using hd.left c hc

theorem Drawn.left_sell {held h : Book} {u : String} {todo : List Order} {o : Order} {d : Contract} {q r : Money}
    (hd : Drawn D held u todo h) (ho : soldOfOrder o = some (d, q)) (hq : Whole q.val) (hpos : 0 ≤ q.val)
    (hr : Ops.sub (.code D) (h.have d) q = .ok r) (c : Contract) (hc : (held.have c).val < 10 ^ 28) :
    (Book.have (h.insert d.hk d r) c).val < 10 ^ 28 ∧
      ((Book.have (h.insert d.hk d r) c).val = (held.have c).val - ((todo ++ [o]).map (soldOf c)).sum ∨
        (Book.have (h.insert d.hk d r) c).val ≤ -10 ^ 28) := by
  obtain ⟨hlt, hcase⟩ := hd.left c hc
  rw [List.map_append, List.sum_append, List.map_singleton, List.sum_singleton, soldOf_some ho, have_insert]
  by_cases hcd : c = d
  · subst hcd
    rw [if_pos rfl, if_pos rfl]
    have hkeeps := Keeps.sub (hd.whole.have c) hq hr
    rcases hkeeps.below (by linarith) with hval | ⟨-, hval⟩
    · rw [hval]
      constructor
      · linarith
      · rcases hcase with hexact | hfar
        · left
          linarith
        · right
          linarith
    · exact ⟨hval.trans_lt (by norm_num), .inr hval⟩
  · rw [if_neg hcd, if_neg (Ne.symm hcd), add_zero]
    exact ⟨hlt, hcase⟩

theorem count_nonneg {held : Book} {found : List (String × Money)} {u : String} (hw : WholeHeld held)
    (hlt : (held.have (.equity u)).val < 10 ^ 28) (h : uncovered (.code D) held = .ok found) : 0 ≤ (lookup found u).val := by
  rw [uncovered_val hw hlt h]
  exact Nat.cast_nonneg _

theorem count_other {h : Book} {found found' : List (String × Money)} {u : String} {d : Contract} {r : Money} (hk : Keyed h)
    (hw : WholeHeld h) (hr : Whole r.val) (hd : underlyingOf d ≠ .ok u) (hlt : (h.have (.equity u)).val < 10 ^ 28)
    (hfound : uncovered (.code D) h = .ok found) (hfound' : uncovered (.code D) (h.insert d.hk d r) = .ok found') :
    (lookup found' u).val = (lookup found u).val := by
  have hshares : Book.have (h.insert d.hk d r) (.equity u) = h.have (.equity u) := by
    rw [have_insert, if_neg]
    rintro rfl
    exact hd rfl
  have hcalls : ∀ c : OptionContract, c.underlying = u → Book.have (h.insert d.hk d r) (.option c) = h.have (.option c) := by
    intro c hc
    rw [have_insert, if_neg]
    rintro rfl
    exact hd (by rw [underlyingOf, hc]; rfl)
  have hlots : lotsLeft (h.insert d.hk d r) u = lotsLeft h u := by
    apply List.Sublist.antisymm
    · exact lotsLeft_sublist (hk.insert d r) hk fun c hc _ => by rw [hcalls c hc]
    · exact lotsLeft_sublist hk (hk.insert d r) fun c hc _ => by rw [hcalls c hc]
  rw [uncovered_val hw hlt hfound, uncovered_val (hw.insert d hr) (by rw [hshares]; exact hlt) hfound', hlots, hshares]

theorem coverReason_none {mirror : MirrorState} {held : Book} {d : Contract} {q : Money} {accepted : List Sold}
    (hheld : holdings (.code D) mirror = .ok held)
    (h : coverReason (.code D) mirror (some (d, q)) accepted = .ok none) : ∃ b b' u found found',
    accepted.reduceOption.foldlM (fun h gone => Book.sell (.code D) h gone.1 gone.2) held = .ok b ∧
    b.sell (.code D) d q = .ok b' ∧ underlyingOf d = .ok u ∧ uncovered (.code D) b = .ok found ∧
    uncovered (.code D) b' = .ok found' ∧ (lookup found' u).val ≤ (lookup found u).val := by
  rw [coverReason, hheld] at h
  simp only [bind_eq_ok] at h
  obtain ⟨held', hheld', b, hb, u, hu, found, hfound, b', hb', found', hfound', h⟩ := h
  obtain rfl := Except.ok.inj hheld'
  refine ⟨b, b', u, found, found', hb, hb', hu, hfound, hfound', ?_⟩
  split at h
  · rename_i hle
    rw [Bool.not_eq_true', ← Bool.not_eq_true, Money.gt_iff] at hle
    exact not_lt.1 hle
  · simp only [bind_eq_ok, pure_eq_ok] at h
    obtain ⟨_, -, _, -, h⟩ := h
    cases h

/-- What classifying a batch has come to. -/
structure Let (D : RustDecimal) (held : Book) (u : String) (st : Classified) : Prop where
  accepted : st.accepted = st.todo.map soldOfOrder
  whole : ∀ o ∈ st.todo, Whole o.quantity.val ∧ 0 ≤ o.quantity.val
  drawn : ∃ h, Drawn D held u st.todo h

theorem classifyOrder_let {mirror : MirrorState} {held : Book} {u : String} {mayWait : Bool} {st st' : Classified} {o : Order}
    (hheld : holdings (.code D) mirror = .ok held) (hshares : (held.have (.equity u)).val < 10 ^ 28)
    (ho : Whole o.quantity.val ∧ 0 ≤ o.quantity.val) (hlet : Let D held u st)
    (h : classifyOrder (.code D) mirror mayWait st o = .ok st') : Let D held u st' := by
  simp only [classifyOrder, bind_eq_ok] at h
  obtain ⟨reason, hreason, h⟩ := h
  obtain ⟨b, hdrawn⟩ := hlet.drawn
  cases reason with
  | some why =>
    cases mayWait with
    | true =>
      obtain rfl := Except.ok.inj h
      exact ⟨hlet.accepted, hlet.whole, hlet.drawn⟩
    | false =>
      obtain rfl := Except.ok.inj h
      exact ⟨hlet.accepted, hlet.whole, hlet.drawn⟩
  | none =>
    obtain rfl := Except.ok.inj h
    constructor
    · simp [hlet.accepted]
    · intro p hp
      rcases List.mem_append.1 hp with hp | hp
      · exact hlet.whole p hp
      · rw [List.mem_singleton.1 hp]
        exact ho
    · cases hsold : soldOfOrder o with
      | none => exact ⟨b, hdrawn.none hsold⟩
      | some e =>
        obtain ⟨d, q⟩ := e
        obtain ⟨hq, -⟩ := soldOfOrder_some hsold
        rw [hsold, hlet.accepted] at hreason
        obtain ⟨b₁, b', v, found, found', hrun, hsell, hv, hfound, hfound', hle⟩ := coverReason_none hheld hreason
        obtain rfl : b = b₁ := Except.ok.inj (hdrawn.run.symm.trans hrun)
        obtain ⟨r, hr, rfl⟩ := Book.have_sell hsell
        obtain ⟨found₀, hfound₀, hzero⟩ := hdrawn.zero
        obtain rfl : found₀ = found := Except.ok.inj (hfound₀.symm.trans hfound)
        have hqw : Whole q.val ∧ 0 ≤ q.val := by
          rw [hq]
          exact ho
        have hrw := (Keeps.sub (hdrawn.whole.have d) hqw.1 hr).whole
        have hleft := hdrawn.left_sell hsold hqw.1 hqw.2 hr
        refine ⟨_, ?_, hdrawn.keyed.insert d r, hdrawn.whole.insert d hrw, ⟨found', hfound', ?_⟩, hleft⟩
        · rw [List.map_append, List.map_singleton, hsold, List.reduceOption_append, List.reduceOption_singleton,
            List.foldlM_append, hdrawn.run]
          simpa using hsell
        · by_cases huv : v = u
          · subst huv
            have hnonneg := count_nonneg (hdrawn.whole.insert d hrw) (hleft _ hshares).1 hfound'
            linarith
          · rw [count_other hdrawn.keyed hdrawn.whole hrw (by rw [hv]; simpa using huv) (hdrawn.left _ hshares).1 hfound hfound']
            exact hzero

theorem classifyCover_let {mirror : MirrorState} {held : Book} {u : String} {mayWait : Bool} {found : List (String × Money)}
    {candidates : List Order} {st : Classified} (hheld : holdings (.code D) mirror = .ok held) (hk : Keyed held)
    (hw : WholeHeld held) (hshares : (held.have (.equity u)).val < 10 ^ 28) (hfound : uncovered (.code D) held = .ok found)
    (hzero : (lookup found u).val = 0) (ho : ∀ o ∈ candidates, Whole o.quantity.val ∧ 0 ≤ o.quantity.val)
    (h : classifyCover (.code D) mirror candidates mayWait = .ok st) : Let D held u st := by
  apply foldlM_invariant (P := Let D held u) _ h
  · exact ⟨rfl, by simp [Classified.start], held, .start hk hw hfound hzero⟩
  · intro st o st' hmem hstep hlet
    exact classifyOrder_let hheld hshares (ho o hmem) hlet hstep

/-- What the book let through covers, a book that holds no less of what counts covers too. -/
theorem count_zero_of_ge {h h' : Book} {found found' : List (String × Money)} {u : String} (hk : Keyed h) (hk' : Keyed h')
    (hw : WholeHeld h) (hw' : WholeHeld h') (hlt : (h.have (.equity u)).val < 10 ^ 28)
    (hcalls : ∀ c : OptionContract, c.underlying = u → c.right = .call → (h.have (.option c)).val ≤ (h'.have (.option c)).val)
    (hshares : 0 < (h.have (.equity u)).val → (h.have (.equity u)).val ≤ (h'.have (.equity u)).val)
    (hfound : uncovered (.code D) h = .ok found) (hzero : (lookup found u).val = 0)
    (hfound' : uncovered (.code D) h' = .ok found') : (lookup found' u).val = 0 := by
  have hsub := lotsLeft_sublist hk' hk hcalls
  have hlots : shortLots (h.have (.equity u)).val (lotsLeft h u) = 0 := by
    rw [uncovered_val hw hlt hfound] at hzero
    exact_mod_cast hzero
  obtain ⟨n, hn, hval⟩ := uncovered_spec hw' hfound' u
  rw [hval]
  by_cases hpos : 0 < (h.have (.equity u)).val
  · have hzero' := shortLots_zero_mono hsub le_rfl (lotsLeft_pos h u) hlots
    rw [handOut_zero (hw'.have _) (hshares hpos) hlt hzero' hn]
    rfl
  · -- no lot is reached without shares, so none is left
    have hnil : lotsLeft h u = [] := by
      cases hl : lotsLeft h u with
      | nil => rfl
      | cons x l =>
        have hx : (0 : ℚ) < x := by exact_mod_cast lotsLeft_pos h u x (by simp [hl])
        rw [hl, shortLots, if_neg (by linarith)] at hlots
        cases hlots
    rw [hnil, List.sublist_nil, lotsLeft, List.map_eq_nil_iff] at hsub
    rw [hsub] at hn
    rw [← Except.ok.inj hn]
    rfl

/-! ## What is held -/

/-- Every quantity of the mirror is whole: its book, and the quantity and fill of its tickets. -/
structure WholeMirror (m : MirrorState) : Prop where
  book : ∀ e ∈ m.book.entries, Whole e.2.val
  tickets : ∀ e ∈ m.tickets.entries, Whole e.2.queued.quantity.val ∧ Whole e.2.filled.val

theorem Book.add_kept {h h' : Book} {c : Contract} {q : Money} (hq : Whole q.val) (hh : Keyed h ∧ WholeHeld h)
    (hadd : h.add (.code D) c q = .ok h') : Keyed h' ∧ WholeHeld h' := by
  obtain ⟨r, hr, rfl⟩ := Book.have_add hadd
  exact ⟨hh.1.insert c r, hh.2.insert c (Keeps.add (hh.2.have c) hq hr).whole⟩

theorem Keeps.mul {a b r : Money} (ha : Whole a.val) (hb : Whole b.val) (h : Ops.mul (.code D) a b = .ok r) :
    Keeps (a.val * b.val) r.val :=
  .of_rounds (ha.mul hb) (Money.mul_spec a b) (by simpa [Ops.mul, Arith.code] using h)

theorem whole_mulI {a r : Money} {n : ℤ} (ha : Whole a.val) (h : Ops.mulI (.code D) a n = .ok r) : Whole r.val := by
  simp only [Ops.mulI, Arith.mulI, except_mapError_eq_ok, bind_eq_ok] at h
  obtain ⟨b, hb, hr⟩ := h
  have hbw : Whole b.val := Money.fromI128_val hb ▸ .cast n
  exact (Keeps.of_rounds (ha.mul hbw) (Money.mul_spec a b) hr).whole

theorem WholeHeld.empty : WholeHeld .empty := by
  intro e he
  cases he

theorem ticketContracts_whole {q : MirrorQueued} {units : Money} {m : OMap Contract Money} (hu : Whole units.val)
    (h : TradeEngine.ticketContracts (.code D) q units = .ok m) : WholeHeld m := by
  unfold TradeEngine.ticketContracts at h
  split at h
  · apply foldlM_invariant (P := WholeHeld) _ h .empty
    intro out leg out' _ hstep hout
    simp only [bind_eq_ok, pure_eq_ok] at hstep
    obtain ⟨x, hx, y, hy, rfl⟩ := hstep
    exact hout.insert _ (whole_mulI (Keeps.mul (Whole.sign _) hu hx).whole hy)
  · simp only [bind_eq_ok, pure_eq_ok] at h
    obtain ⟨x, hx, rfl⟩ := h
    exact WholeHeld.empty.insert _ (Keeps.mul (Whole.sign _) hu hx).whole

theorem remaining_whole {t : MirrorTicketState} {r : Money} (hq : Whole t.queued.quantity.val) (hf : Whole t.filled.val)
    (h : t.remaining (.code D) = .ok r) : Whole r.val := by
  unfold MirrorTicketState.remaining at h
  split at h
  · rw [← Except.ok.inj h]
    simpa using Whole.zero
  · exact (Keeps.sub hq hf h).whole

theorem holdings_kept {m : MirrorState} {held : Book} (hm : WholeMirror m) (h : holdings (.code D) m = .ok held) :
    Keyed held ∧ WholeHeld held := by
  simp only [holdings, bind_eq_ok, pure_eq_ok] at h
  obtain ⟨b, hb, b', hb', rfl⟩ := h
  have hbook : Keyed b ∧ WholeHeld b := by
    apply foldlM_invariant (P := fun h => Keyed h ∧ WholeHeld h) _ hb ⟨.empty, .empty⟩
    intro h e h' he hstep hh
    exact Book.add_kept (hm.book e he) hh hstep
  have hrest : Keyed b' ∧ WholeHeld b' := by
    apply foldlM_invariant (P := fun h => Keyed h ∧ WholeHeld h) _ hb' hbook
    intro h t h' ht hstep hh
    simp only [bind_eq_ok] at hstep
    obtain ⟨units, hunits, contracts, hcontracts, hstep⟩ := hstep
    have hticket : Whole t.queued.quantity.val ∧ Whole t.filled.val := by
      obtain ⟨e, he, rfl⟩ := List.mem_map.1 (List.mem_of_mem_filter ht)
      exact hm.tickets e ((List.mem_insertionSort _).1 he)
    have hwhole := ticketContracts_whole (remaining_whole hticket.1 hticket.2 hunits) hcontracts
    apply foldlM_invariant (P := fun h => Keyed h ∧ WholeHeld h) _ hstep hh
    intro b e b' he hstep hb
    split at hstep
    · exact Book.add_kept (hwhole e he) hb hstep
    · obtain rfl := Except.ok.inj hstep
      exact hb
  have hkeep : ∀ (es : List (Contract × Money)) (m : Book), (∀ e ∈ es, Whole e.2.val) → Keyed m ∧ WholeHeld m →
      Keyed (es.foldl (fun m e => if e.2.eqNum .zero then m else m.insert e.1.hk e.1 e.2) m) ∧
        WholeHeld (es.foldl (fun m e => if e.2.eqNum .zero then m else m.insert e.1.hk e.1 e.2) m) := by
    intro es
    induction es with
    | nil => exact fun m _ hm => hm
    | cons e es ih =>
      intro m hes hm
      apply ih _ (fun x hx => hes x (by simp [hx]))
      dsimp only
      split_ifs
      · exact hm
      · exact ⟨hm.1.insert _ _, hm.2.insert _ (hes e (by simp))⟩
  exact hkeep b'.entries .empty hrest.2 ⟨.empty, .empty⟩

end TradeEngine.Tos
