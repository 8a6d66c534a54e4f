import TradeEngine.Ledger.Theorems
import TradeEngine.Tos.Lemmas.Batch

/-!
# What the cover rule guarantees

Long calls are assigned to short calls by a maximum matching, selling lowers no count where the lots on the
underlying are of like size, and a batch the rule lets through leaves no call uncovered however it fills.
-/

namespace TradeEngine.Tos

open Lib

variable {D : RustDecimal}

/-! ## The matching -/

theorem mem_bare {longs shorts : List OptionContract} {i : Nat} : i ∈ bare longs shorts ↔ i < shorts.length ∧
    ∀ a, assign (edgeOf covers longs shorts) longs.length shorts.length a ≠ some i := mem_unassigned

theorem length_leftOf (longs shorts : List OptionContract) :
    (leftOf covers longs shorts).length = (bare longs shorts).length := by
  rw [leftOf, List.length_filterMap_eq_countP]
  apply List.countP_eq_length.2
  intro i hi
  rw [List.getElem?_eq_getElem (mem_bare.1 hi).1]
  rfl

theorem length_bare_le {longs longs' shorts shorts' : List OptionContract} (hl : longs'.Subperm longs)
    (hs : shorts.Subperm shorts') : (bare longs shorts).length ≤ (bare longs' shorts').length := by
  have h : ((leftOf covers longs shorts).map fun _ => 1).sum ≤ ((leftOf covers longs' shorts').map fun _ => 1).sum :=
    sum_leftOf_le hl hs fun _ _ _ _ _ => rfl
  simpa [length_leftOf] using h

theorem length_bare_le_length (longs shorts : List OptionContract) : (bare longs shorts).length ≤ shorts.length := by
  calc (bare longs shorts).length ≤ (List.range shorts.length).length := List.length_filter_le _ _
    _ = shorts.length := List.length_range

/-- The calls left bare are those a maximum matching leaves, each once, whatever the order of the lists. -/
theorem bare_maximum_matching (longs shorts : List OptionContract) :
    (∃ k, IsGreatest {k | ∃ M, IsMatching (Joined (edgeOf covers longs shorts) longs.length shorts.length) M ∧
      M.card = k} k ∧ (bare longs shorts).length + k = shorts.length) ∧
    (bare longs shorts).Nodup ∧
    (∀ i, i ∈ bare longs shorts ↔ i < shorts.length ∧
      ∀ a, assign (edgeOf covers longs shorts) longs.length shorts.length a ≠ some i) ∧
    ∀ longs' shorts', longs'.Perm longs → shorts'.Perm shorts → (bare longs' shorts').length = (bare longs shorts).length := by
  refine ⟨?_, nodup_unassigned, fun i => mem_bare, ?_⟩
  · have hle := length_bare_le_length longs shorts
    exact ⟨_, isGreatest_assign, Nat.add_sub_cancel' hle⟩
  · intro longs' shorts' hl hs
    apply Nat.le_antisymm
    · exact length_bare_le hl.symm.subperm hs.subperm
    · exact length_bare_le hl.subperm hs.symm.subperm

/-! ## Selling -/

/-- A book with one holding of shares of `u`, or of a call on it, reduced by a positive whole amount. -/
def Reduced (u : String) (held held' : Book) : Prop := ∃ c q q', (c, q) ∈ held.entries ∧
  (c = .equity u ∨ ∃ o : OptionContract, c = .option o ∧ o.right = .call ∧ o.underlying = u) ∧
  (∃ k : ℤ, 0 < k ∧ q'.val = q.val - k) ∧ held' = held.insert c.hk c q'

theorem Reduced.keyed {u : String} {held held' : Book} (h : Reduced u held held') (hk : Keyed held) : Keyed held' := by
  obtain ⟨c, q, q', -, -, -, rfl⟩ := h
  exact hk.insert c q'

theorem Reduced.whole {u : String} {held held' : Book} (h : Reduced u held held') (hw : WholeHeld held) : WholeHeld held' := by
  obtain ⟨c, q, q', hmem, -, ⟨k, -, hval⟩, rfl⟩ := h
  apply hw.insert
  rw [hval]
  exact (hw (c, q) hmem).sub (.cast k)

/-- The same book with another number of shares of `u`. -/
def Book.stocked (held : Book) (u : String) (stock : Money) : Book := held.insert (Contract.equity u).hk (.equity u) stock

/-- The count of such a book is not refused. -/
structure Countable (held : Book) : Prop where
  keyed : Keyed held
  whole : WholeHeld held
  shares : ∀ u, (held.have (.equity u)).val < 10 ^ 28
  positions : ∀ c q, (.option c, q) ∈ held.entries → |q.val| ≤ 1000000
  lots : ∀ c q, (.option c, q) ∈ held.entries → c.multiplier < 10 ^ 28
  units : ∀ u, (bookUnits true held u).length < 10 ^ 28

section
variable {held : Book} {u : String} {stock : Money}

theorem Book.have_option_stocked (c : OptionContract) : (held.stocked u stock).have (.option c) = held.have (.option c) := by
  rw [Book.stocked, have_insert, if_neg (by simp)]

theorem Countable.stocked (h : Countable held) (hw : Whole stock.val) (hlt : stock.val < 10 ^ 28) :
    Countable (held.stocked u stock) where
  keyed := h.keyed.insert _ stock
  whole := h.whole.insert _ hw
  shares u' := by
    rw [Book.stocked, have_insert]
    split_ifs
    · exact hlt
    · exact h.shares u'
  positions c q hmem := by
    rcases mem_insert_entries h.keyed hmem with ⟨hc, -⟩ | hold
    · cases hc
    · exact h.positions c q hold
  lots c q hmem := by
    rcases mem_insert_entries h.keyed hmem with ⟨hc, -⟩ | hold
    · cases hc
    · exact h.lots c q hold
  units u' := by
    have hsame (c : OptionContract) : (held.stocked u stock).have (.option c) = held.have (.option c) :=
      Book.have_option_stocked c
    have hsub := (bookUnits_subperm (h.keyed.insert (.equity u) stock) h.keyed (u := u') fun c _ _ =>
      (congrArg Money.val (hsame c)).ge).1
    exact hsub.length_le.trans_lt (h.units u')

theorem Countable.count (h : Countable held) (u : String) : ∃ found, uncovered (.code D) held = .ok found ∧
    (lookup found u).val = shortLots (held.have (.equity u)).val (lotsLeft held u) := by
  obtain ⟨found, hfound⟩ := uncovered_ok (D := D) h.whole h.positions h.lots h.shares h.units
  exact ⟨found, hfound, uncovered_val h.whole (h.shares u) hfound⟩

end

namespace Sample

open TradeEngine.Sample

def lotCall (m : ℤ) (h : 0 < m) : OptionContract := { call with multiplier := m, multiplier_pos := h }

section Lots

variable (stock one two : Money) {M m : ℤ} (hM : 0 < M) (hm : 0 < m) (hne : M ≠ m)

/-- Shares against one short call of a large lot and two of a small one. -/
def lots : Book :=
  ⟨[((Contract.equity call.underlying).hk, .equity call.underlying, stock),
    ((Contract.option (lotCall M hM)).hk, .option (lotCall M hM), one),
    ((Contract.option (lotCall m hm)).hk, .option (lotCall m hm), two)], by
    have hcalls : lotCall M hM ≠ lotCall m hm := fun h => hne (congrArg OptionContract.multiplier h)
    simp [Contract.hk_injective.eq_iff, hcalls]⟩

variable {stock one two}

end Lots

end Sample

theorem sum_soldOf_le {c : Contract} {os todo : List Order} (hsub : os.Subperm todo)
    (hpos : ∀ o ∈ todo, 0 ≤ o.quantity.val) : (os.map (soldOf c)).sum ≤ (todo.map (soldOf c)).sum := by
  obtain ⟨l, hperm, hl⟩ := hsub
  rw [← (hperm.map (soldOf c)).sum_eq]
  apply (hl.map (soldOf c)).sum_le_sum
  intro x hx
  obtain ⟨o, ho, rfl⟩ := List.mem_map.1 hx
  exact soldOf_nonneg (hpos o ho) c

/-- A batch the rule lets through keeps a covered underlying covered: whichever of its orders fill, in whatever whole
parts and order, no short call on it is left without cover after any number of fills, in every book that can be
counted. -/
theorem batch_stays_covered {mirror : MirrorState} {held : Book} {u : String} {found : List (String × Money)}
    {candidates : List Order} {mayWait : Bool} {st : Classified} {fills : List (Order × Money)} (hm : WholeMirror mirror)
    (hheld : holdings (.code D) mirror = .ok held) (hshares : (held.have (.equity u)).val < 10 ^ 28)
    (hfound : uncovered (.code D) held = .ok found) (hzero : (lookup found u).val = 0)
    (horders : ∀ o ∈ candidates, (∃ c, o.instrument = .single c) ∧ Whole o.quantity.val ∧ 0 < o.quantity.val)
    (hst : classifyCover (.code D) mirror candidates mayWait = .ok st) (hsub : (fills.map (·.1)).Subperm st.todo)
    (hparts : ∀ f ∈ fills, PartOf f) (n : ℕ) {held' : Book} (hfill : (fills.take n).foldlM (fillOrder D) held = .ok held')
    {found' : List (String × Money)} (hfound' : uncovered (.code D) held' = .ok found') : (lookup found' u).val = 0 := by
  obtain ⟨hkeyed, hwhole⟩ := holdings_kept hm hheld
  have hlet := classifyCover_let hheld hkeyed hwhole hshares hfound hzero 
    (fun o ho => ⟨(horders o ho).2.1, (horders o ho).2.2.le⟩) hst
  obtain ⟨h, hdrawn⟩ := hlet.drawn
  obtain ⟨found₀, hfound₀, hzero₀⟩ := hdrawn.zero
  have htake : ∀ f ∈ fills.take n, PartOf f := fun f hf => hparts f (List.mem_of_mem_take hf)
  obtain ⟨hkeyed', hwhole'⟩ := fillOrders_kept hkeyed hwhole htake hfill
  -- each holding that counts stays at or above what the accepted sells leave of it
  have hlower : ∀ c, Counts c → (held.have c).val < 10 ^ 28 → -10 ^ 28 < (h.have c).val →
      (h.have c).val ≤ (held'.have c).val := by
    intro c hc hlt hlow
    have hexact := (hdrawn.left c hlt).2.resolve_right (not_le.2 hlow)
    have hle : ((fills.take n).map fun f => soldOf c f.1).sum ≤ (st.todo.map (soldOf c)).sum := by
      have hmap : (fills.take n).map (fun f => soldOf c f.1) = ((fills.take n).map (·.1)).map (soldOf c) := by
        rw [List.map_map]
        rfl
      rw [hmap]
      exact sum_soldOf_le (((List.take_sublist n fills).map _).subperm.trans hsub) fun o ho => (hlet.whole o ho).2
    have hrun := fillOrders_lower hc hwhole htake le_rfl hlt (by linarith) hfill
    linarith
  apply count_zero_of_ge hdrawn.keyed hkeyed' hdrawn.whole hwhole' (hdrawn.left _ hshares).1 _ _ hfound₀ hzero₀ hfound'
  · intro c hcu hcall
    have hbound := uncovered_units hkeyed hwhole hfound hcall
    have hbound' := uncovered_units hdrawn.keyed hdrawn.whole hfound₀ hcall
    apply hlower (.option c) hcall
    · linarith [le_abs_self (held.have (.option c)).val]
    · linarith [neg_abs_le (h.have (.option c)).val]
  · intro hpos
    exact hlower (.equity u) trivial hshares (by linarith)

namespace Sample

open TradeEngine.Sample

def countsAfter (mirror : MirrorState) (fills : List (Order × Money)) : Option (List (String × Money)) :=
  (do
    let held ← holdings (.code decimal) mirror
    let held' ← fills.foldlM (fillOrder decimal) held
    uncovered (.code decimal) held' : R (List (String × Money))).toOption

def todoOf (mirror : MirrorState) (candidates : List Order) : Option (List Order) :=
  (classifyCover (.code decimal) mirror candidates false).toOption.map (·.todo)

def inFull (o : Order) : Order × Money := (o, o.quantity)

def buyCalls : Order := market "o1" "c1" (.single (.option call)) .buy (units 1000001)

def sellShares (id : String) (n : Nat) : Order := market id id (.single (.equity call.underlying)) .sell (units n)

def wideCall : Contract := .option (lotCall (10 ^ 28 - 3) (by decide))

/-- A short call of that lot, and shares beyond 28 digits. -/
def wideMirror : MirrorState :=
  { MirrorState.new with
    book := OMap.insert (OMap.insert .empty (bookHk "alpha" (.single (.equity call.underlying))) ("alpha", .equity call.underlying)
      (units (10 ^ 28 + 10))) (bookHk "alpha" (.single wideCall)) ("alpha", wideCall) .minusOne }

def coveredMirror : MirrorState :=
  { MirrorState.new with
    book := OMap.insert (OMap.insert .empty (bookHk "alpha" (.single (.equity call.underlying))) ("alpha", .equity call.underlying)
      (units 200)) (bookHk "alpha" (.single (.option call))) ("alpha", .option call) .minusOne }

def coveredBook (n : Nat) : Book :=
  OMap.insert (OMap.insert .empty (Contract.equity call.underlying).hk (.equity call.underlying) (units n))
    (Contract.option call).hk (.option call) .minusOne

theorem wholeMirror_covered : WholeMirror coveredMirror where
  book := by
    have hall : coveredMirror.book.entries.all (fun e => e.2.val.den == 1) = true := by decide +kernel
    intro e he
    have hden := List.all_eq_true.1 hall e he
    exact ⟨e.2.val.num, ((Rat.den_eq_one_iff _).1 (by simpa using hden)).symm⟩
  tickets := by
    intro e he
    cases he

theorem ok_of_items {x : R Book} {b : Book} (h : x.toOption.map (·.items) = some b.items) : x = .ok b := by
  obtain ⟨⟨items, _⟩, hx, rfl⟩ := Option.map_eq_some_iff.1 h
  exact toOption_eq_some.1 hx

theorem whole_units (n : Nat) (h : n < mantissaLimit) : (units n).val = n := by
  rw [units, Money.ofNat, dif_pos h]
  simp [Money.val]

theorem sellShares_single {id : String} {n : Nat} (h : n < mantissaLimit) (hpos : 0 < n) :
    (∃ c, (sellShares id n).instrument = .single c) ∧ Whole (sellShares id n).quantity.val ∧
      0 < (sellShares id n).quantity.val := by
  refine ⟨⟨_, rfl⟩, ⟨n, ?_⟩, ?_⟩
  · exact_mod_cast whole_units n h
  · change 0 < (units n).val
    rw [whole_units n h]
    exact_mod_cast hpos

end Sample

/-- Forty shares of a hundred sold out of two hundred, where another hundred wait. -/
theorem batch_stays_covered_forty : ∃ found,
    uncovered (.code TradeEngine.Sample.decimal) (Sample.coveredBook 160) = .ok found ∧
      (lookup found TradeEngine.Sample.call.underlying).val = 0 := by
  have hsell : (classifyCover (.code TradeEngine.Sample.decimal) Sample.coveredMirror
      [Sample.sellShares "s1" 100, Sample.sellShares "s2" 100] true).toOption.map (·.todo) =
    some [Sample.sellShares "s1" 100] := by decide +kernel
  obtain ⟨st, hst, htodo⟩ := Option.map_eq_some_iff.1 hsell
  have hheld : holdings (.code TradeEngine.Sample.decimal) Sample.coveredMirror = .ok (Sample.coveredBook 200) :=
    Sample.ok_of_items (by decide +kernel)
  have hfound : uncovered (.code TradeEngine.Sample.decimal) (Sample.coveredBook 200) = .ok [] :=
    toOption_eq_some.1 (by decide +kernel)
  have hfill : ([(Sample.sellShares "s1" 100, TradeEngine.Sample.units 40)].take 1).foldlM
      (fillOrder TradeEngine.Sample.decimal) (Sample.coveredBook 200) = .ok (Sample.coveredBook 160) :=
    Sample.ok_of_items (by decide +kernel)
  have hfound' : uncovered (.code TradeEngine.Sample.decimal) (Sample.coveredBook 160) = .ok [] :=
    toOption_eq_some.1 (by decide +kernel)
  refine ⟨[], hfound', ?_⟩
  apply batch_stays_covered Sample.wholeMirror_covered hheld (by decide +kernel) hfound (by simp [lookup]) _
    (toOption_eq_some.1 hst) (by rw [htodo]; exact List.Subperm.refl _) _ 1 hfill hfound'
  · intro o ho
    rcases List.mem_pair.1 ho with rfl | rfl
    · exact Sample.sellShares_single (by decide) (by decide)
    · exact Sample.sellShares_single (by decide) (by decide)
  · intro f hf
    rw [List.mem_singleton.1 hf]
    have hforty := Sample.whole_units 40 (by decide)
    have hundred := Sample.whole_units 100 (by decide)
    constructor
    · exact ⟨40, by exact_mod_cast hforty⟩
    · rw [hforty]
      norm_num
    · change (TradeEngine.Sample.units 40).val ≤ (TradeEngine.Sample.units 100).val
      rw [hforty, hundred]
      norm_num

/-- Calls bought beyond a million are refused a count, and of shares beyond 28 digits a sale may round away: selling
four leaves as many, selling thirteen the lot, and the two in the other order less than the lot. -/
theorem batch_uncounted_or_uncovered :
    (MirrorState.Reached (.code TradeEngine.Sample.decimal) .new ∧ Sample.countsAfter .new [] = some [] ∧
      Sample.todoOf .new [Sample.buyCalls] = some [Sample.buyCalls] ∧
      Sample.countsAfter .new [Sample.inFull Sample.buyCalls] = none) ∧
    Sample.countsAfter Sample.wideMirror [] = some [] ∧
    Sample.todoOf Sample.wideMirror [Sample.sellShares "s1" 4, Sample.sellShares "s2" 13] =
      some [Sample.sellShares "s1" 4, Sample.sellShares "s2" 13] ∧
    Sample.countsAfter Sample.wideMirror [Sample.inFull (Sample.sellShares "s2" 13), Sample.inFull (Sample.sellShares "s1" 4)] =
      some [(TradeEngine.Sample.call.underlying, .one)] := by
  refine ⟨⟨⟨"acct", [], _, rfl, rfl⟩, ?_, ?_, ?_⟩, ?_, ?_, ?_⟩
  · decide +kernel
  · decide +kernel
  · decide +kernel
  · decide +kernel
  · decide +kernel
  · decide +kernel

end TradeEngine.Tos
