import TradeEngine.Ledger.Lemmas.Keys
import TradeEngine.Ledger.Lemmas.Lots
import TradeEngine.Tos.Netting

/-!
# What netting makes of a batch

First the loop over the orders: what was taken, what was refused, and the books of the contracts
traded. Then the tickets: every group of taken orders becomes one ticket, or none of its contract
does.
-/

namespace TradeEngine.Tos

open Lib

variable {A : Arith}

/-! ## Holders -/

def heldIn (book : Holders) (account : String) : ℚ :=
  (book.map fun h => if h.1 = account then h.2.val else 0).sum

def Mixed (position : String → ℚ) : Prop := ∃ a b, 0 < position a ∧ position b < 0

theorem addHolding_exact {account : String} {delta : Money} {book book' : Holders}
    (h : addHolding A.exact account delta book = .ok book') (a : String) :
    heldIn book' a = heldIn book a + if account = a then delta.val else 0 := by
  induction book generalizing book' with
  | nil =>
      simp only [addHolding, bind_eq_ok, pure_eq_ok] at h
      obtain ⟨q, hq, rfl⟩ := h
      simp [heldIn, Ops.exact_add hq]
  | cons e rest ih =>
      obtain ⟨b, q⟩ := e
      unfold addHolding at h
      split at h
      · rename_i heq
        simp only [bind_eq_ok, pure_eq_ok] at h
        obtain ⟨r, hr, rfl⟩ := h
        have hr := Ops.exact_add hr
        by_cases ha : account = a
        · simp [heldIn, heq, ha, hr]
          ring
        · simp [heldIn, heq, ha]
      · simp only [bind_eq_ok, pure_eq_ok] at h
        obtain ⟨rest', hrest, rfl⟩ := h
        have := ih hrest
        simp only [heldIn, List.map_cons, List.sum_cons] at this ⊢
        rw [this]
        ring

theorem exists_pos_of_sum_pos {l : List ℚ} (h : 0 < l.sum) : ∃ x ∈ l, 0 < x := by
  induction l with
  | nil => simp at h
  | cons x l ih =>
      by_cases hx : 0 < x
      · exact ⟨x, List.mem_cons_self, hx⟩
      · rw [List.sum_cons] at h
        obtain ⟨y, hy, hpos⟩ := ih (by linarith)
        exact ⟨y, List.mem_cons_of_mem _ hy, hpos⟩

theorem exists_neg_of_sum_neg {l : List ℚ} (h : l.sum < 0) : ∃ x ∈ l, x < 0 := by
  by_contra hnone
  push Not at hnone
  exact absurd (List.sum_nonneg hnone) (not_le.mpr h)

theorem not_mixed_of_mixedSigns {book : Holders} (h : mixedSigns book = false) :
    ¬ Mixed (heldIn book) := by
  rintro ⟨a, b, ha, hb⟩
  have hlong : true ∈ (book.filter (·.2.ne .zero)).map (·.2.gt .zero) := by
    obtain ⟨x, hx, hpos⟩ := exists_pos_of_sum_pos ha
    obtain ⟨e, he, rfl⟩ := List.mem_map.mp hx
    split at hpos
    · have hgt : e.2.gt .zero = true := Money.gt_iff.mpr (by rwa [Money.val_zero])
      have hne : e.2.ne .zero = true := by
        rw [Money.ne_iff, Money.val_zero]
        exact hpos.ne'
      exact List.mem_map.mpr ⟨e, List.mem_filter.mpr ⟨he, hne⟩, hgt⟩
    · exact absurd hpos (lt_irrefl 0)
  have hshort : false ∈ (book.filter (·.2.ne .zero)).map (·.2.gt .zero) := by
    obtain ⟨x, hx, hneg⟩ := exists_neg_of_sum_neg hb
    obtain ⟨e, he, rfl⟩ := List.mem_map.mp hx
    split at hneg
    · have hgt : e.2.gt .zero = false := by
        rw [Bool.eq_false_iff]
        intro hgt
        have := Money.gt_iff.mp hgt
        rw [Money.val_zero] at this
        exact absurd this (not_lt.mpr hneg.le)
      have hne : e.2.ne .zero = true := by
        rw [Money.ne_iff, Money.val_zero]
        exact hneg.ne
      exact List.mem_map.mpr ⟨e, List.mem_filter.mpr ⟨he, hne⟩, hgt⟩
    · exact absurd hneg (lt_irrefl 0)
  unfold mixedSigns at h
  rw [decide_eq_false_iff_not] at h
  apply h
  have hsub : [true, false].Subperm ((book.filter (·.2.ne .zero)).map (·.2.gt .zero)).dedup := by
    refine List.subperm_of_subset (by decide) fun s hs => List.mem_dedup.mpr ?_
    cases s with
    | true => exact hlong
    | false => exact hshort
  exact hsub.length_le

/-! ## What an order trades -/

/-- The contracts an instrument trades, each with its side and its contracts for one unit. -/
def tradesOf (i : Instrument) (side : Side) : List (Contract × Side × Int) :=
  match i with
  | .combo legs => legs.map fun l => (l.contract, l.side, l.ratio)
  | .single c => [(c, side, 1)]

def NOrder.trades (o : NOrder) : List (Contract × Side × Int) :=
  match o.instrument with
  | .known i => tradesOf i o.side
  | .other _ => []

def Ticket.trades (t : Ticket) : List (Contract × Side × Int) := tradesOf t.instrument t.side

/-- The signed contracts under a key that an order trades. -/
def NOrder.moves (o : NOrder) (hk : String) : ℚ :=
  (o.trades.map fun l => if l.1.hk = hk then l.2.1.unit * l.2.2 * o.quantity.val else 0).sum

/-- What the orders of one account among some trade of a contract. -/
def movedBy (account hk : String) (orders : List (NOrder × Nat)) : ℚ :=
  (orders.map fun x => if x.1.accountId = account then x.1.moves hk else 0).sum

theorem movedBy_append (account hk : String) (l l' : List (NOrder × Nat)) :
    movedBy account hk (l ++ l') = movedBy account hk l + movedBy account hk l' := by
  simp [movedBy]

theorem movedBy_perm {account hk : String} {l l' : List (NOrder × Nat)} (h : l.Perm l') :
    movedBy account hk l = movedBy account hk l' := (h.map _).sum_eq

theorem legsOf_exact {o : NOrder} {legs : List (Contract × Side × Money)}
    (h : legsOf A.exact o = .ok legs) :
    legs.map (fun l => (l.1, l.2.1)) = o.trades.map (fun l => (l.1, l.2.1)) ∧
    ∀ hk, (legs.map fun l => if l.1.hk = hk then l.2.1.unit * l.2.2.val else 0).sum = o.moves hk := by
  unfold legsOf at h
  unfold NOrder.moves NOrder.trades
  split at h
  · rename_i legs' hi
    rw [hi]
    simp only [tradesOf]
    have hall := mapM_ok h
    clear h hi
    induction hall with
    | nil => simp
    | cons hone _ ih =>
        simp only [bind_eq_ok, pure_eq_ok] at hone
        obtain ⟨q, hq, rfl⟩ := hone
        obtain ⟨hsides, hsum⟩ := ih
        refine ⟨by simpa using hsides, fun hk => ?_⟩
        simp only [List.map_cons, List.sum_cons, hsum, Ops.exact_mulI hq]
        congr 2
        ring
  · rename_i c hi
    rw [hi]
    cases h
    simp [tradesOf]
  · simp [wireErr] at h

theorem legs_keys {o : NOrder} {legs : List (Contract × Side × Money)}
    (h : legsOf A.exact o = .ok legs) : legs.map (·.1.hk) = o.trades.map (·.1.hk) := by
  have := congrArg (List.map fun p : Contract × Side => p.1.hk) (legsOf_exact h).1
  simpa [List.map_map, Function.comp_def] using this

/-! ## One order -/

variable {holdings : OMap (String × Contract) Money} {s : Netting} {o : NOrder}

/-- What was found of one leg of an order that is taken. -/
structure Tried (A : Arith) (holdings : OMap (String × Contract) Money) (s : Netting) (o : NOrder)
    (trials : OMap Contract Holders) (l : Contract × Side × Money) : Prop where
  side : ∀ first, s.batchSide.get l.1.hk = some first → first.1 = l.2.1
  trial : ∃ delta book, signedBy A l.2.1 l.2.2 = .ok delta ∧
    addHolding A o.accountId delta (holdersOf holdings s l.1) = .ok book ∧
    mixedSigns book = false ∧ trials.get l.1.hk = some book

theorem tryLegs_frame {legs : List (Contract × Side × Money)} {trials trials' : OMap Contract Holders}
    (h : tryLegs A holdings s o legs trials = .ok (.ok trials')) {hk : String}
    (hfar : ∀ l ∈ legs, l.1.hk ≠ hk) : trials'.get hk = trials.get hk := by
  induction legs generalizing trials with
  | nil =>
      cases h
      rfl
  | cons l rest ih =>
      obtain ⟨c, side, q⟩ := l
      simp only [tryLegs, bind_eq_ok] at h
      obtain ⟨reason, -, h⟩ := h
      cases reason with
      | some reason => simp at h
      | none =>
          simp only [bind_eq_ok] at h
          obtain ⟨delta, -, trial, -, h⟩ := h
          split at h
          · simp at h
          · rw [ih h fun l hl => hfar l (List.mem_cons_of_mem _ hl),
              OMap.get_insert_ne _ _ _ (hfar _ List.mem_cons_self).symm]

theorem tryLegs_tried {legs : List (Contract × Side × Money)} {trials trials' : OMap Contract Holders}
    (h : tryLegs A holdings s o legs trials = .ok (.ok trials'))
    (hn : (legs.map (·.1.hk)).Nodup) : ∀ l ∈ legs, Tried A holdings s o trials' l := by
  induction legs generalizing trials with
  | nil => simp
  | cons l rest ih =>
      obtain ⟨c, side, q⟩ := l
      rw [List.map_cons, List.nodup_cons] at hn
      simp only [tryLegs, bind_eq_ok] at h
      obtain ⟨reason, hreason, h⟩ := h
      cases reason with
      | some reason => simp at h
      | none =>
          simp only [bind_eq_ok] at h
          obtain ⟨delta, hdelta, trial, htrial, h⟩ := h
          split at h
          · simp at h
          · rename_i hmixed
            intro l hl
            rcases List.mem_cons.mp hl with rfl | hl
            · refine ⟨fun first hfirst => ?_, delta, trial, hdelta, htrial, by simpa using hmixed, ?_⟩
              · unfold opposes at hreason
                rw [hfirst] at hreason
                by_contra hside
                simp only [if_pos hside] at hreason
                simp at hreason
              · have hfar : ∀ l ∈ rest, l.1.hk ≠ c.hk := fun l hl heq =>
                  hn.1 (List.mem_map.mpr ⟨l, hl, heq⟩)
                rw [tryLegs_frame h hfar, OMap.get_insert_self]
            · exact ih h hn.2 l hl

theorem keepLegs_books {trials : OMap Contract Holders} {legs : List (Contract × Side × Money)}
    (s : Netting) (hk : String) : (legs.foldl (keepLeg o trials) s).books.get hk =
      if hk ∈ legs.map (·.1.hk) then some ((trials.get hk).getD []) else s.books.get hk := by
  induction legs generalizing s with
  | nil => simp
  | cons l rest ih =>
      rw [List.foldl_cons, ih, List.map_cons]
      simp only [keepLeg, OMap.get_insert, List.mem_cons]
      by_cases hrest : hk ∈ rest.map (·.1.hk)
      · simp [hrest]
      · by_cases hl : hk = l.1.hk
        · simp [hl]
        · simp [hrest, hl]

theorem keepLegs_sides {trials : OMap Contract Holders} {legs : List (Contract × Side × Money)}
    (s : Netting) : (∀ hk first, s.batchSide.get hk = some first →
      (legs.foldl (keepLeg o trials) s).batchSide.get hk = some first) ∧
    ((legs.map (·.1.hk)).Nodup → ∀ l ∈ legs,
      (∀ first, s.batchSide.get l.1.hk = some first → first.1 = l.2.1) →
      ∃ id, (legs.foldl (keepLeg o trials) s).batchSide.get l.1.hk = some (l.2.1, id)) := by
  induction legs generalizing s with
  | nil => simp
  | cons l rest ih =>
      obtain ⟨hkeep, hnew⟩ := ih (keepLeg o trials s l)
      have hstep : ∀ hk, (keepLeg o trials s l).batchSide.get hk =
          if s.batchSide.get hk = none ∧ hk = l.1.hk then some (l.2.1, o.orderId)
          else s.batchSide.get hk := by
        intro hk
        simp only [keepLeg]
        by_cases hc : s.batchSide.contains l.1.hk = true
        · rw [if_pos hc, if_neg]
          rintro ⟨hnone, rfl⟩
          simp [OMap.contains, hnone] at hc
        · rw [if_neg hc, OMap.get_insert]
          by_cases hk' : hk = l.1.hk
          · have hnone : s.batchSide.get hk = none := by simpa [OMap.contains, hk'] using hc
            simp [hk', hk' ▸ hnone]
          · simp [hk']
      refine ⟨fun hk first hfirst => hkeep hk first ?_, fun hn m hm hside => ?_⟩
      · rw [hstep, if_neg (by simp [hfirst]), hfirst]
      · rw [List.map_cons, List.nodup_cons] at hn
        rcases List.mem_cons.mp hm with rfl | hm
        · cases hget : s.batchSide.get m.1.hk with
          | none => exact ⟨o.orderId, hkeep _ _ (by rw [hstep, if_pos ⟨hget, rfl⟩])⟩
          | some first =>
              have hfirst := hside first hget
              exact ⟨first.2, hkeep _ _ (by rw [hstep, if_neg (by simp [hget]), hget, ← hfirst])⟩
        · refine hnew hn.2 m hm fun first hfirst => hside first ?_
          have hne : m.1.hk ≠ l.1.hk := fun heq => hn.1 (List.mem_map.mpr ⟨m, hm, heq⟩)
          rwa [hstep, if_neg (by simp [hne])] at hfirst

theorem keepLegs_rest {trials : OMap Contract Holders} {legs : List (Contract × Side × Money)}
    (s : Netting) : (legs.foldl (keepLeg o trials) s).accepted = s.accepted ∧
      (legs.foldl (keepLeg o trials) s).verticals = s.verticals ∧
      (legs.foldl (keepLeg o trials) s).refused = s.refused := by
  induction legs generalizing s with
  | nil => exact ⟨rfl, rfl, rfl⟩
  | cons l rest ih => exact ih (keepLeg o trials s l)

/-! ## The batch, order by order -/

theorem verticalReason_nodup {legs : List ComboLeg} (h : verticalReason legs = .ok none) :
    (legs.map (·.contract.hk)).Nodup := by
  unfold verticalReason at h
  split at h
  · rename_i a ra sa ha b rb sb hb
    rw [pure_eq_ok] at h
    have hstrike : a.strike.eqNum b.strike = false := by
      by_contra hne
      rw [Bool.not_eq_false] at hne
      split at h
      · cases h
      split at h
      · cases h
      split at h
      · cases h
      split at h
      · cases h
      cases h
    have hne : (Contract.option a).hk ≠ (Contract.option b).hk := by
      intro heq
      rw [option_hk_inj heq, Money.eqNum_eq_decide] at hstrike
      simp at hstrike
    simp [hne]
  · simp only [bind_eq_ok, pure_eq_ok] at h
    obtain ⟨_, -, h⟩ := h
    cases h

/-- What passes the screen: one contract, or a vertical at one net price. -/
inductive Mirrorable (o : NOrder) : Prop
  | single (c : Contract) (instrument : o.instrument = .known (.single c))
  | vertical (legs : List ComboLeg) (instrument : o.instrument = .known (.combo legs))
      (shape : verticalReason legs = .ok none) (limit : o.orderType = .limit)

theorem screen_none {mirrored : List String} (h : screen o mirrored = .ok none) : Mirrorable o := by
  unfold screen at h
  split at h
  · cases h
  · split at h
    · rename_i legs hi
      simp only [bind_eq_ok] at h
      obtain ⟨reason, hreason, h⟩ := h
      cases reason with
      | some reason => cases h
      | none =>
          dsimp only at h
          split at h
          · cases h
          · rename_i hlimit
            exact .vertical legs hi hreason (not_not.mp hlimit)
    · cases h
    · rename_i c hi
      exact .single c hi

theorem Mirrorable.nodup (h : Mirrorable o) : (o.trades.map (·.1.hk)).Nodup := by
  cases h with
  | single c hi => simp [NOrder.trades, hi, tradesOf]
  | vertical legs hi shape _ =>
      have hn := verticalReason_nodup shape
      simpa [NOrder.trades, hi, tradesOf, List.map_map, Function.comp_def] using hn

def Netting.kept (s : Netting) : List (NOrder × Nat) := s.accepted.values.flatten ++ s.verticals

/-- What a contract's holders hold before the batch. -/
def holdingOf (holdings : OMap (String × Contract) Money) (account hk : String) : ℚ :=
  heldIn ((holdings.entries.filter (·.1.2.hk = hk)).map fun e => (e.1.1, e.2)) account

/-- The loop after the orders `done`, of which it left `left`. -/
structure Screened (holdings : OMap (String × Contract) Money) (done left : List (NOrder × Nat))
    (s : Netting) : Prop where
  all : (s.kept ++ left).Perm done
  refused : s.refused.map (·.1) = left.map (·.1.orderId)
  named : ∀ e ∈ s.accepted.items, e.1 = e.2.1.hk
  single : ∀ e ∈ s.accepted.items, ∀ x ∈ e.2.2, ∃ c, x.1.instrument = .known (.single c) ∧ c.hk = e.1
  vertical : ∀ x ∈ s.verticals, ∃ legs, x.1.instrument = .known (.combo legs) ∧ x.1.orderType = .limit
  sides : ∀ x ∈ s.kept, ∀ l ∈ x.1.trades, ∃ id, s.batchSide.get l.1.hk = some (l.2.1, id)
  books : ∀ c account, heldIn (holdersOf holdings s c) account =
    holdingOf holdings account c.hk + movedBy account c.hk s.kept
  unmixed : ∀ hk book, s.books.get hk = some book → mixedSigns book = false

theorem Screened.start : Screened holdings [] [] .start := by
  constructor
  case all => exact .refl _
  case refused => rfl
  case named => simp [Netting.start, OMap.empty]
  case single => simp [Netting.start, OMap.empty]
  case vertical => simp [Netting.start]
  case sides => simp [Netting.kept, Netting.start, OMap.values, OMap.empty]
  case books =>
    intro c account
    simp [holdersOf, Netting.start, holdingOf, Netting.kept, movedBy, OMap.values, OMap.empty, OMap.get]
  case unmixed => simp [Netting.start]

theorem Screened.refuse {done left : List (NOrder × Nat)} (h : Screened holdings done left s)
    (x : NOrder × Nat) (reason : String) (seen : List String) :
    Screened holdings (done ++ [x]) (left ++ [x])
      { s with refused := s.refused ++ [(x.1.orderId, reason)], seenIds := seen } where
  all := by
    rw [← List.append_assoc]
    exact h.all.append_right [x]
  refused := by
    rw [List.map_append, List.map_append, h.refused]
    rfl
  named := h.named
  single := h.single
  vertical := h.vertical
  sides := h.sides
  books := h.books
  unmixed := h.unmixed

theorem keepOrder_kept (x : NOrder × Nat) (s : Netting) : (keepOrder x s).kept.Perm (s.kept ++ [x]) := by
  unfold keepOrder Netting.kept
  split
  · rename_i c _
    have hperm := (OMap.bucket_perm s.accepted c.hk c x).append_right s.verticals
    refine hperm.trans ?_
    rw [List.append_assoc, List.append_assoc]
    exact (List.perm_append_comm).append_left _
  · rw [List.append_assoc]

theorem keepOrder_rest (x : NOrder × Nat) (s : Netting) : (keepOrder x s).books = s.books ∧
    (keepOrder x s).batchSide = s.batchSide ∧ (keepOrder x s).refused = s.refused := by
  unfold keepOrder
  split <;> exact ⟨rfl, rfl, rfl⟩

theorem movedBy_singleton (account hk : String) (x : NOrder × Nat) :
    movedBy account hk [x] = if x.1.accountId = account then x.1.moves hk else 0 := by
  simp [movedBy]

theorem moves_of_leg {legs : List (Contract × Side × Money)} (hlegs : legsOf A.exact o = .ok legs)
    (hn : (legs.map (·.1.hk)).Nodup) {l : Contract × Side × Money} (hl : l ∈ legs) :
    o.moves l.1.hk = l.2.1.unit * l.2.2.val := by
  rw [← (legsOf_exact hlegs).2]
  clear hlegs
  induction legs with
  | nil => cases hl
  | cons m rest ih =>
      rw [List.map_cons, List.nodup_cons] at hn
      rw [List.map_cons, List.sum_cons]
      rcases List.mem_cons.mp hl with rfl | hl
      · have hrest : (rest.map fun m : Contract × Side × Money =>
            if m.1.hk = l.1.hk then m.2.1.unit * m.2.2.val else 0).sum = 0 := by
          refine List.sum_eq_zero fun y hy => ?_
          obtain ⟨m, hm, rfl⟩ := List.mem_map.mp hy
          exact if_neg fun heq => hn.1 (List.mem_map.mpr ⟨m, hm, heq⟩)
        rw [if_pos rfl, hrest, add_zero]
      · rw [if_neg fun heq => hn.1 (List.mem_map.mpr ⟨l, hl, heq.symm⟩), zero_add]
        exact ih hn.2 hl

theorem moves_of_far {legs : List (Contract × Side × Money)} (hlegs : legsOf A.exact o = .ok legs)
    {hk : String} (hfar : hk ∉ legs.map (·.1.hk)) : o.moves hk = 0 := by
  rw [← (legsOf_exact hlegs).2]
  refine List.sum_eq_zero fun y hy => ?_
  obtain ⟨l, hl, rfl⟩ := List.mem_map.mp hy
  exact if_neg fun heq => hfar (List.mem_map.mpr ⟨l, hl, heq⟩)

theorem signedBy_exact {side : Side} {q r : Money} (h : signedBy A.exact side q = .ok r) :
    r.val = side.unit * q.val := by
  unfold signedBy at h
  cases side with
  | buy =>
      rw [if_pos rfl, pure_eq_ok] at h
      rw [← h, Side.unit, one_mul]
  | sell =>
      rw [if_neg (by decide)] at h
      rw [Ops.exact_neg h, Side.unit, neg_one_mul]

theorem Screened.keep {done left : List (NOrder × Nat)} (h : Screened holdings done left s)
    {x : NOrder × Nat} (hx : Mirrorable x.1) {legs : List (Contract × Side × Money)}
    (hlegs : legsOf A.exact x.1 = .ok legs) {trials : OMap Contract Holders}
    (htried : ∀ l ∈ legs, Tried A.exact holdings s x.1 trials l) :
    Screened holdings (done ++ [x]) left (keepOrder x (legs.foldl (keepLeg x.1 trials) s)) := by
  have hkeys : legs.map (·.1.hk) = x.1.trades.map (·.1.hk) := legs_keys hlegs
  have hn : (legs.map (·.1.hk)).Nodup := hkeys ▸ hx.nodup
  have haccepted : (legs.foldl (keepLeg x.1 trials) s).accepted = s.accepted := (keepLegs_rest s).1
  have hverticals : (legs.foldl (keepLeg x.1 trials) s).verticals = s.verticals :=
    (keepLegs_rest s).2.1
  have hrefused : (legs.foldl (keepLeg x.1 trials) s).refused = s.refused := (keepLegs_rest s).2.2
  obtain ⟨hbooks, hsides, hrefused'⟩ := keepOrder_rest x (legs.foldl (keepLeg x.1 trials) s)
  have hkept : (keepOrder x (legs.foldl (keepLeg x.1 trials) s)).kept.Perm (s.kept ++ [x]) := by
    have := keepOrder_kept x (legs.foldl (keepLeg x.1 trials) s)
    unfold Netting.kept at this ⊢
    rwa [haccepted, hverticals] at this
  constructor
  case all =>
    refine (hkept.append_right left).trans ?_
    rw [List.append_assoc]
    refine (List.perm_append_comm.append_left s.kept).trans ?_
    rw [← List.append_assoc]
    exact h.all.append_right [x]
  case refused =>
    rw [hrefused', hrefused]
    exact h.refused
  case named =>
    unfold keepOrder
    split
    · rw [haccepted]
      exact OMap.forall_keys_insert (P := fun t (c : Contract) => t = c.hk) h.named rfl
    · rw [haccepted]
      exact h.named
  case single =>
    unfold keepOrder
    split
    · rename_i c hi
      rw [haccepted]
      exact OMap.forall_bucket (P := fun t (x : NOrder × Nat) =>
        ∃ c, x.1.instrument = .known (.single c) ∧ c.hk = t) h.single ⟨c, hi, rfl⟩
    · rw [haccepted]
      exact h.single
  case vertical =>
    unfold keepOrder
    split
    · rw [hverticals]
      exact h.vertical
    · rename_i hno
      intro y hy
      rw [hverticals, List.mem_append, List.mem_singleton] at hy
      rcases hy with hy | rfl
      · exact h.vertical y hy
      · cases hx with
        | single c hi => exact absurd hi (hno c)
        | vertical legs hi _ hlimit => exact ⟨legs, hi, hlimit⟩
  case sides =>
    intro y hy l hl
    rw [hsides]
    rcases List.mem_append.mp (hkept.mem_iff.mp hy) with hy | hy
    · obtain ⟨id, hid⟩ := h.sides y hy l hl
      exact ⟨id, (keepLegs_sides s).1 _ _ hid⟩
    · rw [List.mem_singleton.mp hy] at hl
      have hmem : (l.1, l.2.1) ∈ legs.map fun l => (l.1, l.2.1) := by
        rw [(legsOf_exact hlegs).1]
        exact List.mem_map.mpr ⟨l, hl, rfl⟩
      obtain ⟨m, hm, hml⟩ := List.mem_map.mp hmem
      rw [Prod.mk.injEq] at hml
      rw [← hml.1, ← hml.2]
      exact (keepLegs_sides s).2 hn m hm (htried m hm).side
  case books =>
    intro c account
    rw [movedBy_perm hkept, movedBy_append, movedBy_singleton, ← add_assoc, ← h.books c account]
    have hget : (legs.foldl (keepLeg x.1 trials) s).books.get c.hk = _ := keepLegs_books s c.hk
    by_cases hc : c.hk ∈ legs.map (·.1.hk)
    · obtain ⟨l, hl, hlc⟩ := List.mem_map.mp hc
      have hlc : l.1 = c := Contract.hk_injective hlc
      obtain ⟨delta, book, hdelta, hbook, -, htrial⟩ := (htried l hl).trial
      rw [if_pos hc] at hget
      have hnow : holdersOf holdings (keepOrder x (legs.foldl (keepLeg x.1 trials) s)) c = book := by
        rw [holdersOf, hbooks, hget, ← hlc, htrial]
        rfl
      rw [hnow, addHolding_exact hbook, signedBy_exact hdelta, ← hlc, moves_of_leg hlegs hn hl]
    · rw [if_neg hc] at hget
      rw [moves_of_far hlegs hc, ite_self, add_zero, holdersOf, hbooks, hget]
      rfl
  case unmixed =>
    intro hk book hbook
    rw [hbooks, keepLegs_books] at hbook
    split at hbook
    · rename_i hmem
      obtain ⟨l, hl, rfl⟩ := List.mem_map.mp hmem
      obtain ⟨_, trial, -, -, hmixed, htrial⟩ := (htried l hl).trial
      rw [htrial] at hbook
      cases hbook
      exact hmixed
    · exact h.unmixed hk book hbook

theorem netOrder_screened {mirrored : List String} {done left : List (NOrder × Nat)}
    (h : Screened holdings done left s) {x : NOrder × Nat} {s' : Netting}
    (hx : netOrder A.exact mirrored holdings s x = .ok s') :
    ∃ left', Screened holdings (done ++ [x]) left' s' := by
  unfold netOrder at hx
  dsimp only at hx
  split at hx
  · cases hx
    exact ⟨_, h.refuse x _ s.seenIds⟩
  · simp only [bind_eq_ok] at hx
    obtain ⟨reason, hreason, hx⟩ := hx
    cases reason with
    | some reason =>
        cases hx
        exact ⟨_, h.refuse x _ _⟩
    | none =>
        simp only [bind_eq_ok] at hx
        obtain ⟨legs, hlegs, tried, htried, hx⟩ := hx
        cases tried with
        | error reason =>
            cases hx
            exact ⟨_, h.refuse x _ _⟩
        | ok trials =>
            cases hx
            have hmirror := screen_none hreason
            have hseen : Screened holdings done left { s with seenIds := s.seenIds ++ [x.1.orderId] } :=
              ⟨h.all, h.refused, h.named, h.single, h.vertical, h.sides, h.books, h.unmixed⟩
            have hkeys : legs.map (·.1.hk) = x.1.trades.map (·.1.hk) := legs_keys hlegs
            exact ⟨left, hseen.keep hmirror hlegs (tryLegs_tried htried (hkeys ▸ hmirror.nodup))⟩

theorem netOrders_screened {mirrored : List String} {xs done left : List (NOrder × Nat)}
    (h : Screened holdings done left s) {s' : Netting}
    (hx : xs.foldlM (netOrder A.exact mirrored holdings) s = .ok s') :
    ∃ left', Screened holdings (done ++ xs) left' s' := by
  induction xs generalizing s done left with
  | nil =>
      cases hx
      exact ⟨left, by simpa using h⟩
  | cons x xs ih =>
      simp only [List.foldlM_cons, bind_eq_ok] at hx
      obtain ⟨m, hm, hx⟩ := hx
      obtain ⟨left', h'⟩ := netOrder_screened h hm
      obtain ⟨left'', h''⟩ := ih h' hx
      exact ⟨left'', by simpa using h''⟩

/-! ## One ticket -/

/-- What an order's constructor promises of it. -/
structure NOrder.Valid (o : NOrder) : Prop where
  orderId : o.orderId ≠ ""
  accountId : o.accountId ≠ ""
  positive : 0 < o.quantity.val
  priced : o.orderType = .limit → o.limitPrice.isSome = true

/-- The orders of a ticket: each is allocated its own quantity, on the ticket's terms. -/
structure OnTicket (members : List (NOrder × Nat)) (t : Ticket) : Prop where
  some : members ≠ []
  allocations : t.allocations =
    members.map fun x => ⟨x.1.orderId, x.1.accountId, x.1.quantity⟩
  quantity : t.quantity.val = (t.allocations.map (·.quantity.val)).sum
  instrument : ∀ x ∈ members, x.1.instrument = .known t.instrument
  side : ∀ x ∈ members, x.1.side = t.side
  terms : ∀ x ∈ members, termsOf x.1 = ⟨t.orderType, t.tif, t.limitPrice⟩

/-- Why no ticket of a contract can be built: its symbol, or the clock. -/
def Barred (stamp : Stamp) (c : Contract) : Prop :=
  c.symbol.isOk = false ∨
    (requireAware stamp .value "submitted_at must be timezone-aware UTC datetime (I7)").isOk = false

theorem derr_kind (e : DecErr) : (derr e).kind ≠ .value := by
  cases e <;> simp [derr]

theorem add_kind {a b : Money} {e : LErr} (h : Ops.add A a b = .error e) : e.kind ≠ .value := by
  unfold Ops.add at h
  cases hadd : A.add a b with
  | error d =>
      rw [hadd] at h
      cases h
      exact derr_kind d
  | ok r =>
      rw [hadd] at h
      cases h

theorem sum_kind {l : List Money} {q : Money} {e : LErr}
    (h : l.foldlM (Ops.add A) q = .error e) : e.kind ≠ .value := by
  induction l generalizing q with
  | nil => cases h
  | cons x l ih =>
      rw [List.foldlM_cons] at h
      cases hadd : Ops.add A q x with
      | error d =>
          rw [hadd] at h
          cases h
          exact add_kind hadd
      | ok r =>
          rw [hadd] at h
          exact ih h

theorem sum_exact {l : List Money} {q r : Money} (h : l.foldlM (Ops.add A.exact) q = .ok r) :
    r.val = q.val + (l.map Money.val).sum := by
  induction l generalizing q with
  | nil =>
      cases h
      simp
  | cons x l ih =>
      simp only [List.foldlM_cons, bind_eq_ok] at h
      obtain ⟨m, hm, h⟩ := h
      rw [ih h, Ops.exact_add hm, List.map_cons, List.sum_cons, add_assoc]

section MakeTicket

variable {sha256 : String → String} {venue : String} {i : Instrument} {type : OrderType} {tif : Tif}
  {limit : Option Money} {side : Side} {group : List NOrder} {stamp : Stamp}

theorem allocate_ok {a : Allocated} (h : allocate o = .ok a) :
    a = ⟨o.orderId, o.accountId, o.quantity⟩ := by
  simp only [allocate, bind_eq_ok, pure_eq_ok] at h
  obtain ⟨_, -, _, -, _, -, rfl⟩ := h
  rfl

theorem allocations_ok {as : List Allocated} (h : group.mapM allocate = .ok as) :
    as = group.map fun o => ⟨o.orderId, o.accountId, o.quantity⟩ := by
  have hall := mapM_ok h
  clear h
  induction hall with
  | nil => rfl
  | cons hone _ ih => rw [List.map_cons, allocate_ok hone, ih]

theorem allocations_of_valid (h : ∀ o ∈ group, o.Valid) :
    group.mapM allocate = .ok (group.map fun o => ⟨o.orderId, o.accountId, o.quantity⟩) := by
  induction group with
  | nil => rfl
  | cons o rest ih =>
      have ho := h o List.mem_cons_self
      have hpos : o.quantity.le .zero = false := by
        rw [Bool.eq_false_iff]
        intro hle
        have := Money.le_iff.mp hle
        rw [Money.val_zero] at this
        exact absurd ho.positive (not_lt.mpr this)
      have hone : allocate o = .ok ⟨o.orderId, o.accountId, o.quantity⟩ := by
        simp [allocate, refuseIf, ho.orderId, ho.accountId, hpos]
      rw [List.mapM_cons, hone, ih fun o ho => h o (List.mem_cons_of_mem _ ho)]
      rfl

theorem makeTicket_ok {t : Ticket}
    (h : makeTicket A.exact sha256 venue i type tif limit side group stamp = .ok t) :
    i.symbol.isOk = true ∧
    (requireAware stamp .value "submitted_at must be timezone-aware UTC datetime (I7)").isOk = true ∧
    t.instrument = i ∧ t.orderType = type ∧ t.tif = tif ∧ t.limitPrice = limit ∧ t.side = side ∧
    t.allocations = (group.map fun o => ⟨o.orderId, o.accountId, o.quantity⟩) ∧
    t.quantity.val = (t.allocations.map (·.quantity.val)).sum := by
  simp only [makeTicket, bind_eq_ok, pure_eq_ok] at h
  obtain ⟨q, hq, key, hkey, as, has, _, -, at', hat, _, -, _, -, _, -, _, -, rfl⟩ := h
  simp only [ticketKey, bind_eq_ok] at hkey
  obtain ⟨symbol, hsymbol, -⟩ := hkey
  have has := allocations_ok has
  have hq : (group.map (·.quantity)).foldlM (Ops.add A.exact) Money.zero = .ok q := by
    rw [List.foldlM_map]
    exact hq
  refine ⟨by rw [hsymbol]; rfl, by rw [hat]; rfl, rfl, rfl, rfl, rfl, rfl, has, ?_⟩
  rw [sum_exact hq, Money.val_zero, zero_add, has, List.map_map, List.map_map]
  rfl

/-- Of orders as their constructor lets them through, a ticket is refused for its symbol or the
clock only. -/
theorem makeTicket_value {e : LErr} (hsome : group ≠ []) (hvalid : ∀ o ∈ group, o.Valid)
    (hlimit : type = .limit → limit.isSome = true) (hmarket : type = .market → limit = none)
    (h : makeTicket A.exact sha256 venue i type tif limit side group stamp = .error e)
    (hkind : e.kind = .value) : i.symbol.isOk = false ∨
      (requireAware stamp .value "submitted_at must be timezone-aware UTC datetime (I7)").isOk = false := by
  by_contra hboth
  rw [not_or, Bool.not_eq_false, Bool.not_eq_false] at hboth
  obtain ⟨hsymbol, hstamp⟩ := hboth
  cases hs : i.symbol with
  | error d =>
      rw [hs] at hsymbol
      cases hsymbol
  | ok symbol =>
  cases ha : requireAware stamp .value "submitted_at must be timezone-aware UTC datetime (I7)" with
  | error d =>
      rw [ha] at hstamp
      cases hstamp
  | ok at' =>
  have hfold : group.foldlM (fun q o => Ops.add A.exact q o.quantity) Money.zero =
      (group.map (·.quantity)).foldlM (Ops.add A.exact) Money.zero := by rw [List.foldlM_map]
  have halloc : (group.map fun o => (⟨o.orderId, o.accountId, o.quantity⟩ : Allocated)).foldlM
      (fun q a => Ops.add A.exact q a.quantity) Money.zero =
        (group.map (·.quantity)).foldlM (Ops.add A.exact) Money.zero := by
    rw [List.foldlM_map, List.foldlM_map]
  unfold makeTicket at h
  rw [hfold] at h
  cases hq : (group.map (·.quantity)).foldlM (Ops.add A.exact) Money.zero with
  | error d =>
      rw [hq] at h
      cases h
      exact sum_kind hq hkind
  | ok q =>
      have hqpos : q.le .zero = false := by
        rw [Bool.eq_false_iff]
        intro hle
        have hle := Money.le_iff.mp hle
        rw [sum_exact hq, Money.val_zero, zero_add, List.map_map] at hle
        have hpos : 0 < (group.map (Money.val ∘ (·.quantity))).sum := by
          refine List.sum_pos _ (fun x hx => ?_) (by simpa using hsome)
          obtain ⟨o, ho, rfl⟩ := List.mem_map.mp hx
          exact (hvalid o ho).positive
        exact absurd hle (not_le.mpr hpos)
      have hne : q.ne q = false := by
        rw [Bool.eq_false_iff, ne_eq, Money.ne_iff]
        exact fun hne => hne rfl
      have hmar : ¬ (type = .market ∧ limit.isSome = true) := by
        rintro ⟨hm, hl⟩
        rw [hmarket hm] at hl
        cases hl
      have hlim : ¬ (type = .limit ∧ limit = none) := by
        rintro ⟨hl, hn⟩
        rw [hn] at hlimit
        exact absurd (hlimit hl) (by decide)
      simp [hq, ticketKey, hs, allocations_of_valid hvalid, halloc, ha, refuseIf, hqpos, hmar, hlim,
        hne, bind, Except.bind, pure, Except.pure] at h

end MakeTicket

/-! ## The tickets of a contract -/

theorem orderType_value_injective : Function.Injective OrderType.value := by
  intro t u
  cases t <;> cases u <;> decide

theorem tif_value_injective : Function.Injective Tif.value := by
  intro t u
  cases t <;> cases u <;> decide

theorem Terms.hk_injective : Function.Injective Terms.hk := by
  intro t u h
  have hlist : ∀ t : Terms, t.hk.toList = (t.orderType.value.toList ++ '\x01' :: t.tif.value.toList) ++
      '\x01' :: (t.limit.elim "N" fun p => "L" ++ p.canon).toList := by
    intro t
    simp [Terms.hk, String.toList_append]
  have hlimit : ∀ l : Option Money, '\x01' ∉ (l.elim "N" fun p => "L" ++ p.canon).toList := by
    intro l
    cases l with
    | none => decide
    | some p =>
        rw [Option.elim_some, String.toList_append, List.mem_append, not_or]
        exact ⟨by decide, separates_one.notMem_canon p⟩
  have htif : ∀ tif : Tif, '\x01' ∉ tif.value.toList := by
    intro tif
    cases tif <;> decide
  have hl := congrArg String.toList h
  rw [hlist, hlist] at hl
  obtain ⟨hl, hlim⟩ := append_cons_inj_right (hlimit _) (hlimit _) hl
  obtain ⟨htype, htifs⟩ := append_cons_inj_right (htif _) (htif _) hl
  obtain ⟨ty, tif, lim⟩ := t
  obtain ⟨ty', tif', lim'⟩ := u
  have htype : ty = ty' := orderType_value_injective (String.toList_injective htype)
  have htifs : tif = tif' := tif_value_injective (String.toList_injective htifs)
  have hlim : lim = lim' := by
    have hlim := String.toList_injective hlim
    cases lim with
    | none =>
        cases lim' with
        | none => rfl
        | some p =>
            have := congrArg (fun s : String => s.toList.head?) hlim
            simp [String.toList_append] at this
    | some p =>
        cases lim' with
        | none =>
            have := congrArg (fun s : String => s.toList.head?) hlim
            simp [String.toList_append] at this
        | some p' => rw [Money.canon_injective ((String.append_right_inj _).mp hlim)]
  rw [htype, htifs, hlim]

theorem groupTerms_spec (members : List (NOrder × Nat)) :
    (groupTerms members).values.flatten.Perm members ∧
    (∀ e ∈ (groupTerms members).items, e.1 = e.2.1.hk) ∧
    ∀ e ∈ (groupTerms members).items, ∀ x ∈ e.2.2, (termsOf x.1).hk = e.1 := by
  have hgen : ∀ (l : List (NOrder × Nat)) (m : OMap Terms (List (NOrder × Nat))),
      (∀ e ∈ m.items, e.1 = e.2.1.hk) →
      (∀ e ∈ m.items, ∀ x ∈ e.2.2, (termsOf x.1).hk = e.1) →
      (l.foldl (fun g x => g.bucket (termsOf x.1).hk (termsOf x.1) x) m).values.flatten.Perm
        (m.values.flatten ++ l) ∧
      (∀ e ∈ (l.foldl (fun g x => g.bucket (termsOf x.1).hk (termsOf x.1) x) m).items, e.1 = e.2.1.hk) ∧
      ∀ e ∈ (l.foldl (fun g x => g.bucket (termsOf x.1).hk (termsOf x.1) x) m).items,
        ∀ x ∈ e.2.2, (termsOf x.1).hk = e.1 := by
    intro l
    induction l with
    | nil => exact fun m hk hx => ⟨by simp, hk, hx⟩
    | cons x l ih =>
        intro m hk hx
        obtain ⟨hperm, hk', hx'⟩ := ih (m.bucket (termsOf x.1).hk (termsOf x.1) x)
          (OMap.forall_keys_insert (P := fun t (u : Terms) => t = u.hk) hk rfl)
          (OMap.forall_bucket (P := fun t (y : NOrder × Nat) => (termsOf y.1).hk = t) hx rfl)
        refine ⟨hperm.trans ?_, hk', hx'⟩
        have := (OMap.bucket_perm m (termsOf x.1).hk (termsOf x.1) x).append_right l
        rwa [List.append_assoc] at this
  exact hgen members .empty (by simp [OMap.empty]) (by simp [OMap.empty])

/-- The tickets so far with the orders they carry, and the orders refused. -/
structure Ticketed (groups : List (List (NOrder × Nat))) (left : List (NOrder × Nat)) (b : Batch) :
    Prop where
  tickets : List.Forall₂ OnTicket groups b.venueOrders
  refused : b.refused.map (·.1) = left.map (·.1.orderId)

variable {sha256 : String → String} {venue : String} {stamp : Stamp} {c : Contract}
  {groups : List (List (NOrder × Nat))} {left : List (NOrder × Nat)} {b b' : Batch}

theorem Ticketed.add (h : Ticketed groups left b) {members : List (NOrder × Nat)} {t : Ticket}
    (ht : OnTicket members t) :
    Ticketed (groups ++ [members]) left { b with venueOrders := b.venueOrders ++ [t] } :=
  ⟨List.rel_append h.tickets (.cons ht .nil), h.refused⟩

theorem ticketGroup_spec {terms : Terms} {members : List (NOrder × Nat)} {side : Side}
    (h : Ticketed groups left b) (hterms : ∀ x ∈ members, termsOf x.1 = terms)
    (hsingle : ∀ x ∈ members, x.1.instrument = .known (.single c))
    (hside : ∀ x ∈ members, x.1.side = side) (hvalid : ∀ x ∈ members, x.1.Valid)
    (hb : ticketGroup A.exact sha256 venue stamp c b (terms, members) = .ok b') :
    (¬ Barred stamp c ∧ ∃ new, Ticketed (groups ++ new) left b' ∧ new.flatten = members) ∨
    (Barred stamp c ∧ Ticketed groups (left ++ members) b') := by
  unfold ticketGroup at hb
  dsimp only at hb
  cases members with
  | nil =>
      cases hb
      by_cases hbar : Barred stamp c
      · exact Or.inr ⟨hbar, by simpa using h⟩
      · exact Or.inl ⟨hbar, [], by simpa using h, rfl⟩
  | cons x rest =>
      simp only [List.map_cons] at hb
      have hfirst : termsOf x.1 = terms := hterms x List.mem_cons_self
      have hxside : x.1.side = side := hside x List.mem_cons_self
      cases hmake : makeTicket A.exact sha256 venue (.single c) terms.orderType terms.tif terms.limit
          x.1.side (x.1 :: rest.map (·.1)) stamp with
      | ok t =>
          rw [hmake] at hb
          cases hb
          obtain ⟨hsymbol, hstamp, hinst, htype, htif, hlimit, htside, halloc, hsum⟩ := makeTicket_ok hmake
          refine Or.inl ⟨?_, [x :: rest], h.add ?_, by simp⟩
          · rintro (hno | hno)
            · exact absurd hsymbol (by rw [show (Instrument.single c).symbol = c.symbol from rfl, hno]; decide)
            · exact absurd hstamp (by rw [hno]; decide)
          · refine ⟨by simp, ?_, hsum, ?_, ?_, ?_⟩
            · simp [halloc]
            · intro y hy
              rw [hinst]
              exact hsingle y hy
            · intro y hy
              rw [htside, hxside]
              exact hside y hy
            · intro y hy
              rw [hterms y hy, htype, htif, hlimit]
      | error e =>
          rw [hmake] at hb
          dsimp only at hb
          split at hb
          · rename_i hkind
            simp only [bind_eq_ok, pure_eq_ok] at hb
            obtain ⟨reasons, hreasons, rfl⟩ := hb
            have hbar : Barred stamp c := by
              refine makeTicket_value (by simp) ?_ ?_ ?_ hmake hkind
              · intro o ho
                rw [List.mem_cons, List.mem_map] at ho
                rcases ho with rfl | ⟨y, hy, rfl⟩
                · exact hvalid x List.mem_cons_self
                · exact hvalid y (List.mem_cons_of_mem _ hy)
              · intro hlim
                rw [← hfirst] at hlim ⊢
                change x.1.orderType = .limit at hlim
                change (if x.1.orderType = .limit then x.1.limitPrice else none).isSome = true
                rw [if_pos hlim]
                exact (hvalid x List.mem_cons_self).priced hlim
              · intro hmar
                rw [← hfirst] at hmar ⊢
                change x.1.orderType = .market at hmar
                change (if x.1.orderType = .limit then x.1.limitPrice else none) = none
                rw [if_neg (by rw [hmar]; decide)]
            refine Or.inr ⟨hbar, h.tickets, ?_⟩
            have hids : reasons.map (·.1) = (x.1 :: rest.map (·.1)).map (·.orderId) := by
              generalize x.1 :: rest.map (·.1) = group at hreasons
              have hall := mapM_ok hreasons
              clear hreasons
              induction hall with
              | nil => rfl
              | cons hone _ ih =>
                  simp only [bind_eq_ok, pure_eq_ok] at hone
                  obtain ⟨_, -, rfl⟩ := hone
                  rw [List.map_cons, List.map_cons, ih]
            rw [List.map_append, hids, h.refused, List.map_append]
            simp
          · cases hb

/-- The tickets of one contract carry all of its orders, or it is barred and all are refused. -/
theorem ticketContract_spec {members : List (NOrder × Nat)} {side : Side} (h : Ticketed groups left b)
    (hsingle : ∀ x ∈ members, x.1.instrument = .known (.single c))
    (hside : ∀ x ∈ members, x.1.side = side) (hvalid : ∀ x ∈ members, x.1.Valid)
    (hb : ticketContract A.exact sha256 venue stamp b (c, members) = .ok b') :
    (¬ Barred stamp c ∧ ∃ new, Ticketed (groups ++ new) left b' ∧ new.flatten.Perm members) ∨
    (Barred stamp c ∧ ∃ out, Ticketed groups (left ++ out) b' ∧ out.Perm members) := by
  obtain ⟨hperm, hkeys, hterms⟩ := groupTerms_spec members
  have hmem : ∀ e ∈ (groupTerms members).items, ∀ x ∈ e.2.2, x ∈ members := by
    intro e he x hx
    refine hperm.subset (List.mem_flatten.mpr ⟨e.2.2, List.mem_map.mpr ⟨e, he, rfl⟩, hx⟩)
  have hgen : ∀ (l : List (String × Terms × List (NOrder × Nat)))
      (groups : List (List (NOrder × Nat))) (left : List (NOrder × Nat)) (b : Batch),
      (∀ e ∈ l, e ∈ (groupTerms members).items) → Ticketed groups left b →
      (l.map (·.2)).foldlM (ticketGroup A.exact sha256 venue stamp c) b = .ok b' →
      (¬ Barred stamp c ∧ ∃ new, Ticketed (groups ++ new) left b' ∧
        new.flatten = (l.map (·.2.2)).flatten) ∨
      (Barred stamp c ∧ Ticketed groups (left ++ (l.map (·.2.2)).flatten) b') := by
    intro l
    induction l with
    | nil =>
        intro groups left b _ h hb
        cases hb
        by_cases hbar : Barred stamp c
        · exact Or.inr ⟨hbar, by simpa using h⟩
        · exact Or.inl ⟨hbar, [], by simpa using h, rfl⟩
    | cons e l ih =>
        intro groups left b hl h hb
        have he := hl e List.mem_cons_self
        simp only [List.map_cons, List.foldlM_cons, bind_eq_ok] at hb
        obtain ⟨m, hm, hb⟩ := hb
        have hown : ∀ x ∈ e.2.2, termsOf x.1 = e.2.1 := fun x hx =>
          Terms.hk_injective ((hterms e he x hx).trans (hkeys e he))
        have hone := ticketGroup_spec h hown (fun x hx => hsingle x (hmem e he x hx))
          (fun x hx => hside x (hmem e he x hx)) (fun x hx => hvalid x (hmem e he x hx)) hm
        have hrest : ∀ e ∈ l, e ∈ (groupTerms members).items := fun e he =>
          hl e (List.mem_cons_of_mem _ he)
        rcases hone with ⟨hbar, new, hnew, hflat⟩ | ⟨hbar, hnew⟩
        · rcases ih _ _ _ hrest hnew hb with ⟨-, new', hnew', hflat'⟩ | ⟨hbar', -⟩
          · refine Or.inl ⟨hbar, new ++ new', by simpa using hnew', ?_⟩
            rw [List.flatten_append, hflat, hflat', List.map_cons, List.flatten_cons]
          · exact absurd hbar' hbar
        · rcases ih _ _ _ hrest hnew hb with ⟨hbar', -⟩ | ⟨-, hnew'⟩
          · exact absurd hbar hbar'
          · exact Or.inr ⟨hbar, by simpa using hnew'⟩
  rcases hgen _ _ _ _ (fun _ he => he) h hb with ⟨hbar, new, hnew, hflat⟩ | ⟨hbar, hnew⟩
  · exact Or.inl ⟨hbar, new, hnew, hflat ▸ hperm⟩
  · exact Or.inr ⟨hbar, _, hnew, hperm⟩

theorem ticketVertical_spec {x : NOrder × Nat} {legs : List ComboLeg} (h : Ticketed groups left b)
    (hi : x.1.instrument = .known (.combo legs)) (hlimit : x.1.orderType = .limit)
    (hb : ticketVertical A.exact sha256 venue stamp b x = .ok b') :
    Ticketed (groups ++ [[x]]) left b' ∧ ∀ l ∈ x.1.trades, ¬ Barred stamp l.1 := by
  unfold ticketVertical at hb
  dsimp only at hb
  rw [hi] at hb
  simp only [bind_eq_ok, pure_eq_ok] at hb
  obtain ⟨t, ht, rfl⟩ := hb
  obtain ⟨hsymbol, hstamp, hinst, htype, htif, hlim, hside, halloc, hsum⟩ := makeTicket_ok ht
  refine ⟨h.add ⟨by simp, by simp [halloc], hsum, ?_, ?_, ?_⟩, ?_⟩
  · intro y hy
    rw [List.mem_singleton.mp hy, hi, hinst]
  · intro y hy
    rw [List.mem_singleton.mp hy, hside]
  · intro y hy
    rw [List.mem_singleton.mp hy, htype, htif, hlim, termsOf, if_pos hlimit]
  · intro l hl
    simp only [NOrder.trades, hi, tradesOf, List.mem_map] at hl
    obtain ⟨leg, hleg, rfl⟩ := hl
    rintro (hno | hno)
    · cases hs : (Instrument.combo legs).symbol with
      | error e =>
          rw [hs] at hsymbol
          cases hsymbol
      | ok text =>
          simp only [Instrument.symbol, bind_eq_ok] at hs
          obtain ⟨parts, hparts, -⟩ := hs
          obtain ⟨part, -, hpart⟩ := forall₂_left (mapM_ok hparts) leg hleg
          simp only [bind_eq_ok] at hpart
          obtain ⟨symbol, hsym, -⟩ := hpart
          rw [hsym] at hno
          cases hno
    · rw [hno] at hstamp
      cases hstamp

/-- The tickets of all contracts: what is on a ticket is not barred, what is refused is. -/
theorem ticketContracts_spec {l : List (String × Contract × List (NOrder × Nat))}
    (h : Ticketed groups left b)
    (hsingle : ∀ e ∈ l, ∀ x ∈ e.2.2, x.1.instrument = .known (.single e.2.1))
    (hside : ∀ e ∈ l, ∃ side, ∀ x ∈ e.2.2, x.1.side = side)
    (hvalid : ∀ e ∈ l, ∀ x ∈ e.2.2, x.1.Valid)
    (hb : (l.map (·.2)).foldlM (ticketContract A.exact sha256 venue stamp) b = .ok b') :
    ∃ new out, Ticketed (groups ++ new) (left ++ out) b' ∧
      (new.flatten ++ out).Perm (l.map (·.2.2)).flatten ∧
      (∀ x ∈ new.flatten, ∀ t ∈ x.1.trades, ¬ Barred stamp t.1) ∧
      ∀ x ∈ out, ∀ t ∈ x.1.trades, Barred stamp t.1 := by
  induction l generalizing groups left b with
  | nil =>
      cases hb
      exact ⟨[], [], by simpa using h, by simp, by simp, by simp⟩
  | cons e l ih =>
      simp only [List.map_cons, List.foldlM_cons, bind_eq_ok] at hb
      obtain ⟨m, hm, hb⟩ := hb
      have htrades : ∀ x ∈ e.2.2, ∀ t ∈ x.1.trades, t.1 = e.2.1 := by
        intro x hx t ht
        simp only [NOrder.trades, hsingle e List.mem_cons_self x hx, tradesOf, List.mem_singleton] at ht
        rw [ht]
      obtain ⟨side, hsame⟩ := hside e List.mem_cons_self
      have hone := ticketContract_spec h (hsingle e List.mem_cons_self) hsame
        (hvalid e List.mem_cons_self) hm
      have hsingle' := fun e he => hsingle e (List.mem_cons_of_mem _ he)
      have hside' := fun e he => hside e (List.mem_cons_of_mem _ he)
      have hvalid' := fun e he => hvalid e (List.mem_cons_of_mem _ he)
      rcases hone with ⟨hbar, new, hnew, hperm⟩ | ⟨hbar, out, hnew, hperm⟩
      · obtain ⟨new', out', hnew', hperm', hgood, hbad⟩ := ih hnew hsingle' hside' hvalid' hb
        refine ⟨new ++ new', out', by simpa using hnew', ?_, ?_, hbad⟩
        · rw [List.flatten_append, List.append_assoc, List.map_cons, List.flatten_cons]
          exact hperm.append hperm'
        · intro x hx t ht
          rw [List.flatten_append, List.mem_append] at hx
          rcases hx with hx | hx
          · rw [htrades x (hperm.subset hx) t ht]
            exact hbar
          · exact hgood x hx t ht
      · obtain ⟨new', out', hnew', hperm', hgood, hbad⟩ := ih hnew hsingle' hside' hvalid' hb
        refine ⟨new', out ++ out', by simpa using hnew', ?_, hgood, ?_⟩
        · rw [List.map_cons, List.flatten_cons]
          refine (List.perm_append_comm_assoc _ _ _).trans ?_
          exact hperm.append hperm'
        · intro x hx t ht
          rcases List.mem_append.mp hx with hx | hx
          · rw [htrades x (hperm.subset hx) t ht]
            exact hbar
          · exact hbad x hx t ht

theorem ticketVerticals_spec {l : List (NOrder × Nat)} (h : Ticketed groups left b)
    (hvertical : ∀ x ∈ l, ∃ legs, x.1.instrument = .known (.combo legs) ∧ x.1.orderType = .limit)
    (hb : l.foldlM (ticketVertical A.exact sha256 venue stamp) b = .ok b') :
    Ticketed (groups ++ l.map ([·])) left b' ∧
      ∀ x ∈ l, ∀ t ∈ x.1.trades, ¬ Barred stamp t.1 := by
  induction l generalizing groups b with
  | nil =>
      cases hb
      exact ⟨by simpa using h, by simp⟩
  | cons x l ih =>
      simp only [List.foldlM_cons, bind_eq_ok] at hb
      obtain ⟨m, hm, hb⟩ := hb
      obtain ⟨legs, hi, hlimit⟩ := hvertical x List.mem_cons_self
      obtain ⟨hx, hbar⟩ := ticketVertical_spec h hi hlimit hm
      obtain ⟨hrest, hbars⟩ := ih hx (fun y hy => hvertical y (List.mem_cons_of_mem _ hy)) hb
      refine ⟨by simpa using hrest, fun y hy => ?_⟩
      rcases List.mem_cons.mp hy with rfl | hy
      · exact hbar
      · exact hbars y hy

/-! ## The outcome -/

/-- The outcome of a batch: `groups` are the orders of its tickets, `left` the orders refused. -/
structure Netted (orders : List NOrder) (holdings : OMap (String × Contract) Money) (b : Batch)
    (groups : List (List (NOrder × Nat))) (left : List (NOrder × Nat)) : Prop where
  all : (groups.flatten ++ left).Perm orders.zipIdx
  tickets : List.Forall₂ OnTicket groups b.venueOrders
  refused : b.refused.map (·.1) = left.map (·.1.orderId)
  unopposed : ∀ t ∈ b.venueOrders, ∀ u ∈ b.venueOrders, ∀ l ∈ t.trades, ∀ m ∈ u.trades,
    l.1 = m.1 → l.2.1 = m.2.1
  unmixed : ∀ c : Contract, ¬ Mixed (fun account => holdingOf holdings account c.hk) →
    ¬ Mixed fun account => holdingOf holdings account c.hk + movedBy account c.hk groups.flatten

theorem moves_of_untraded {hk : String} (h : ∀ l ∈ o.trades, l.1.hk ≠ hk) : o.moves hk = 0 := by
  refine List.sum_eq_zero fun x hx => ?_
  obtain ⟨l, hl, rfl⟩ := List.mem_map.mp hx
  exact if_neg (h l hl)

theorem movedBy_of_untraded {account hk : String} {l : List (NOrder × Nat)}
    (h : ∀ x ∈ l, ∀ t ∈ x.1.trades, t.1.hk ≠ hk) : movedBy account hk l = 0 := by
  refine List.sum_eq_zero fun y hy => ?_
  obtain ⟨x, hx, rfl⟩ := List.mem_map.mp hy
  rw [moves_of_untraded (h x hx), ite_self]

theorem onTicket_trades {members : List (NOrder × Nat)} {t : Ticket} (h : OnTicket members t)
    {x : NOrder × Nat} (hx : x ∈ members) : x.1.trades = t.trades := by
  rw [NOrder.trades, h.instrument x hx, h.side x hx]
  rfl

theorem netStrategyOrders_netted {orders : List NOrder} {mirrored : List String}
    (hvalid : ∀ o ∈ orders, o.Valid)
    (h : netStrategyOrders A.exact sha256 orders venue mirrored stamp holdings = .ok b) :
    ∃ groups left, Netted orders holdings b groups left := by
  simp only [netStrategyOrders, bind_eq_ok, pure_eq_ok] at h
  obtain ⟨_, -, s, hs, b₁, hb₁, b₂, hb₂, _, -, rfl⟩ := h
  obtain ⟨left, hscreen⟩ := netOrders_screened .start hs
  rw [List.nil_append] at hscreen
  have hkept : ∀ e ∈ s.accepted.items, ∀ x ∈ e.2.2, x ∈ s.kept := fun e he x hx =>
    List.mem_append_left _ (List.mem_flatten.mpr ⟨e.2.2, List.mem_map.mpr ⟨e, he, rfl⟩, hx⟩)
  have hall : ∀ x ∈ s.kept, x.1.Valid := by
    intro x hx
    have hmem := hscreen.all.subset (List.mem_append_left _ hx)
    exact hvalid x.1 (List.mem_iff_getElem?.mpr ⟨x.2, List.mem_zipIdx_iff_getElem?.mp hmem⟩)
  have hsingle : ∀ e ∈ s.accepted.items, ∀ x ∈ e.2.2, x.1.instrument = .known (.single e.2.1) := by
    intro e he x hx
    obtain ⟨c, hi, hc⟩ := hscreen.single e he x hx
    rw [hi, Contract.hk_injective (hc.trans (hscreen.named e he))]
  have hside : ∀ e ∈ s.accepted.items, ∃ side, ∀ x ∈ e.2.2, x.1.side = side := by
    intro e he
    refine ⟨((s.batchSide.get e.2.1.hk).map (·.1)).getD .buy, fun x hx => ?_⟩
    have htrade : (e.2.1, x.1.side, (1 : Int)) ∈ x.1.trades := by
      simp [NOrder.trades, hsingle e he x hx, tradesOf]
    obtain ⟨id, hid⟩ := hscreen.sides x (hkept e he x hx) _ htrade
    rw [hid]
    rfl
  have hstart : Ticketed [] left ⟨[], s.refused⟩ := ⟨.nil, hscreen.refused⟩
  obtain ⟨new, out, hnew, hperm, hgood, hbad⟩ := ticketContracts_spec hstart hsingle hside
    (fun e he x hx => hall x (hkept e he x hx)) hb₁
  obtain ⟨hdone, hclear⟩ := ticketVerticals_spec hnew hscreen.vertical hb₂
  rw [List.nil_append] at hdone
  have hflat : (new ++ s.verticals.map ([·])).flatten = new.flatten ++ s.verticals := by
    rw [List.flatten_append, ← List.flatMap_def, List.flatMap_singleton']
  -- the orders on a ticket and those refused for their contract are the orders taken
  have hsplit : ((new ++ s.verticals.map ([·])).flatten ++ out).Perm s.kept := by
    rw [hflat, List.append_assoc]
    refine (List.perm_append_comm.append_left new.flatten).trans ?_
    rw [← List.append_assoc]
    exact hperm.append_right s.verticals
  have hplaced : ∀ x ∈ (new ++ s.verticals.map ([·])).flatten,
      x ∈ s.kept ∧ ∀ t ∈ x.1.trades, ¬ Barred stamp t.1 := by
    intro x hx
    refine ⟨hsplit.subset (List.mem_append_left _ hx), ?_⟩
    rw [hflat, List.mem_append] at hx
    rcases hx with hx | hx
    · exact hgood x hx
    · exact hclear x hx
  refine ⟨new ++ s.verticals.map ([·]), left ++ out, ?_⟩
  constructor
  case all =>
    refine (List.perm_append_comm.append_left _).trans ?_
    rw [← List.append_assoc]
    exact (hsplit.append_right left).trans hscreen.all
  case tickets => exact hdone.tickets
  case refused => exact hdone.refused
  case unopposed =>
    have hbatch : ∀ t ∈ b₂.venueOrders, ∀ l ∈ t.trades, ∃ id,
        s.batchSide.get l.1.hk = some (l.2.1, id) := by
      intro t ht l hl
      obtain ⟨members, hmembers, hon⟩ := forall₂_right hdone.tickets t ht
      obtain ⟨x, hx⟩ := List.exists_mem_of_ne_nil _ hon.some
      rw [← onTicket_trades hon hx] at hl
      exact hscreen.sides x (hplaced x (List.mem_flatten.mpr ⟨members, hmembers, hx⟩)).1 l hl
    intro t ht u hu l hl m hm hlm
    obtain ⟨id, hid⟩ := hbatch t ht l hl
    obtain ⟨id', hid'⟩ := hbatch u hu m hm
    rw [hlm, hid', Option.some.injEq, Prod.mk.injEq] at hid
    exact hid.1.symm
  case unmixed =>
    intro c hclean
    by_cases hbar : Barred stamp c
    · have hnone : ∀ account, movedBy account c.hk (new ++ s.verticals.map ([·])).flatten = 0 := by
        intro account
        refine movedBy_of_untraded fun x hx t ht heq => ?_
        rw [← Contract.hk_injective heq] at hbar
        exact (hplaced x hx).2 t ht hbar
      simpa only [hnone, add_zero] using hclean
    · have hmoved : ∀ account, movedBy account c.hk (new ++ s.verticals.map ([·])).flatten =
          movedBy account c.hk s.kept := by
        intro account
        have hout : movedBy account c.hk out = 0 := by
          refine movedBy_of_untraded fun x hx t ht heq => ?_
          rw [← Contract.hk_injective heq] at hbar
          exact hbar (hbad x hx t ht)
        rw [← movedBy_perm hsplit, movedBy_append, hout, add_zero]
      have hbooks : (fun account => holdingOf holdings account c.hk +
          movedBy account c.hk (new ++ s.verticals.map ([·])).flatten) =
            heldIn (holdersOf holdings s c) := by
        funext account
        rw [hmoved, hscreen.books]
      rw [hbooks]
      cases hget : s.books.get c.hk with
      | some book =>
          rw [holdersOf, hget]
          exact not_mixed_of_mixedSigns (hscreen.unmixed _ _ hget)
      | none =>
          rw [holdersOf, hget]
          exact hclean

end TradeEngine.Tos
