import TradeEngine.Ledger.Lemmas.Changes
import TradeEngine.Lib.Text

/-!
# The legs of combo orders

Legs fill one at a time; an order's filled quantity is the least of its legs' filled units. An
amendment is checked against that least only, so the bound on every leg needs a condition on it.
-/

namespace TradeEngine

open Lib

variable {A : Arith}

/-! ## Keys -/

theorem legHk_toList (id : String) (i : Nat) : (legHk id i).toList =
    (Nat.toDigits 10 id.utf8ByteSize ++ ':' :: id.toList) ++ '#' :: Nat.toDigits 10 i := by
  have hsize : (toString id.utf8ByteSize).toList = Nat.toDigits 10 id.utf8ByteSize := by
    simp [toString, Nat.repr]
  simp only [legHk, String.toList_append, toString_natCast_toList, hsize]
  simp

theorem legHk_inj {id id' : String} {i j : Nat} (h : legHk id i = legHk id' j) :
    id = id' ∧ i = j := by
  have hl := congrArg String.toList h
  rw [legHk_toList, legHk_toList] at hl
  obtain ⟨hl, hij⟩ := append_number_inj (by decide) hl
  obtain ⟨-, hid⟩ := append_cons_inj (notMem_toDigits (by decide) _) (notMem_toDigits (by decide) _) hl
  exact ⟨String.toList_injective hid, hij⟩

/-! ## The invariant -/

/-- What one leg of an order has filled. -/
def AccountState.legQty (st : AccountState) (id : String) (i : Nat) : ℚ :=
  ((st.legFilled.get (legHk id i)).getD .zero).val

/-- One order against its legs: none beyond its share of the order, and the filled quantity (once
there is one) is the least of the legs' units. -/
structure LegsFilled (o : Order) (filled : Option Money) (leg : Nat → ℚ) : Prop where
  leg_le : ∀ legs, o.instrument = .combo legs → ∀ i l, legs[i]? = some l →
    leg i ≤ o.quantity.val * l.ratio
  least : ∀ legs, o.instrument = .combo legs → ∀ q, filled = some q →
    IsLeast {x | ∃ i l, legs[i]? = some l ∧ x = leg i / l.ratio} q.val

/-- Every stored order against its legs; an order without fills has none on a leg. -/
structure AccountState.LegsOk (st : AccountState) : Prop where
  stored : ∀ id o, st.orders.get id = some o →
    LegsFilled o (st.filledQuantity.get id) (st.legQty id)
  unknown : ∀ id, st.orders.get id = none → st.filledQuantity.get id = none
  unfilled : ∀ id, st.filledQuantity.get id = none → ∀ i, st.legQty id i = 0

theorem AccountState.LegsOk.new (account : String) : (AccountState.new account).LegsOk where
  stored id o h := by simp [AccountState.new] at h
  unknown id _ := rfl
  unfilled id _ i := by simp [legQty, AccountState.new]

/-- The invariant reads the orders, the filled quantities and the legs only. -/
theorem AccountState.LegsOk.congr {st st' : AccountState} (hok : st.LegsOk)
    (hord : st'.orders = st.orders) (hfq : st'.filledQuantity = st.filledQuantity)
    (hleg : st'.legFilled = st.legFilled) : st'.LegsOk := by
  have hlegQty : st'.legQty = st.legQty := by
    funext id i
    simp only [legQty, hleg]
  refine ⟨fun id o ho => ?_, fun id hid => ?_, fun id hid i => ?_⟩
  · rw [hord] at ho
    rw [hfq, hlegQty]
    exact hok.stored id o ho
  · rw [hord] at hid
    rw [hfq]
    exact hok.unknown id hid
  · rw [hfq] at hid
    rw [hlegQty]
    exact hok.unfilled id hid i

/-- The handler touched the orders only. -/
structure OnlyOrders (st st' : AccountState) : Prop where
  filledQuantity : st'.filledQuantity = st.filledQuantity
  legFilled : st'.legFilled = st.legFilled

/-- The order stored under a key may be replaced by one that its legs allow. -/
theorem AccountState.LegsOk.put {st st' : AccountState} (hok : st.LegsOk) (hsame : OnlyOrders st st')
    {key : String} {o : Order} (hput : st'.orders = st.orders.put key o)
    (ho : LegsFilled o (st.filledQuantity.get key) (st.legQty key)) : st'.LegsOk := by
  have hleg : st'.legQty = st.legQty := by
    funext id i
    simp only [legQty, hsame.legFilled]
  refine ⟨fun id p hp => ?_, fun id hid => ?_, fun id hid i => ?_⟩
  · rw [hput, OMap.get_put] at hp
    rw [hsame.filledQuantity, hleg]
    split at hp
    · rename_i hkey
      cases hp
      exact hkey ▸ ho
    · exact hok.stored id p hp
  · rw [hput, OMap.get_put] at hid
    split at hid
    · cases hid
    · rw [hsame.filledQuantity]
      exact hok.unknown id hid
  · rw [hsame.filledQuantity] at hid
    rw [hleg]
    exact hok.unfilled id hid i

theorem LegsFilled.congr {o p : Order} {filled : Option Money} {leg : Nat → ℚ}
    (h : LegsFilled o filled leg) (hi : p.instrument = o.instrument)
    (hle : ∀ legs, p.instrument = .combo legs → ∀ i l, legs[i]? = some l →
      leg i ≤ p.quantity.val * l.ratio) : LegsFilled p filled leg where
  leg_le := hle
  least legs hp := h.least legs (hi ▸ hp)

/-- An order nothing has filled satisfies the bounds. -/
theorem LegsFilled.fresh {o : Order} {leg : Nat → ℚ} (hleg : ∀ i, leg i = 0)
    (hpos : 0 < o.quantity.val) : LegsFilled o none leg where
  leg_le legs _ i l _ := by
    have hratio : (0 : ℚ) < l.ratio := by exact_mod_cast l.ratio_pos
    rw [hleg i]
    positivity
  least _ _ _ hq := by cases hq

/-! ## Order events -/

/-- No leg of the order has filled more than the order asks of it. -/
def legsFit (st : AccountState) (o : Order) : Bool :=
  match o.instrument with
  | .single _ => true
  | .combo legs => legs.zipIdx.all fun (l, i) => st.legQty o.orderId i ≤ o.quantity.val * l.ratio

theorem legsFit_iff {st : AccountState} {o : Order} : legsFit st o = true ↔
    ∀ legs, o.instrument = .combo legs → ∀ i l, legs[i]? = some l →
      st.legQty o.orderId i ≤ o.quantity.val * l.ratio := by
  unfold legsFit
  cases hi : o.instrument with
  | single c => simp
  | combo legs =>
      simp only [List.all_eq_true, decide_eq_true_eq, Instrument.combo.injEq, forall_eq',
        List.mem_zipIdx_iff_getElem?, Prod.forall]
      exact ⟨fun h i l hl => h l i hl, fun h l i hl => h i l hl⟩

theorem createOrders_legsOk {os : List Order} (hpos : ∀ o ∈ os, 0 < o.quantity.val)
    {st : AccountState} {m : OMap String Order} (hok : { st with orders := m }.LegsOk)
    {m' : OMap String Order} (h : os.foldlM createOrder m = .ok m') :
    { st with orders := m' }.LegsOk := by
  refine foldlM_invariant (P := fun m => { st with orders := m }.LegsOk)
    (fun m o m' ho hstep hok => ?_) h hok
  simp only [createOrder, bind_eq_ok, refuseIf_eq_ok, pure_eq_ok] at hstep
  obtain ⟨_, hsame, rfl⟩ := hstep
  refine hok.put ⟨rfl, rfl⟩ rfl ?_
  cases hg : m.get o.orderId with
  | none =>
      have hnone := hok.unknown _ hg
      dsimp only at hnone ⊢
      rw [hnone]
      exact .fresh (hok.unfilled _ hnone) (hpos o ho)
  | some p =>
      rw [hg] at hsame
      obtain ⟨hi, -, hq, -⟩ := Order.same_iff_fields (o := p) (p := o) (by simpa using hsame)
      have hp := hok.stored _ _ hg
      exact hp.congr hi fun legs hlegs => hq ▸ hp.leg_le legs (hi ▸ hlegs)

theorem onOrderUpdated_legsOk {st st' : AccountState} {u : OrderUpdated} {kind : EventKind}
    (hfit : legsFit st u.order = true) (hok : st.LegsOk)
    (h : onOrderUpdated st u kind = .ok st') : st'.LegsOk := by
  simp only [onOrderUpdated, bind_eq_ok, pure_eq_ok, refuseIf_eq_ok] at h
  obtain ⟨p, hp, _, hid, _, -, _, -, _, -, rfl⟩ := h
  obtain ⟨-, hi, -, -⟩ := identityChanged_false hid
  exact hok.put ⟨rfl, rfl⟩ rfl
    ((hok.stored _ _ (requireOrder_ok hp)).congr hi (legsFit_iff.mp hfit))

theorem onOrderState_legsOk {st st' : AccountState} {c : OrderStateChange} {kind : EventKind}
    {target : OrderState} (hok : st.LegsOk) (h : onOrderState st c kind target = .ok st') :
    st'.LegsOk := by
  simp only [onOrderState, bind_eq_ok, pure_eq_ok] at h
  obtain ⟨o, ho, moved, hmoved, rfl⟩ := h
  obtain ⟨rfl, -⟩ := transitionTo_ok hmoved
  have hs := hok.stored _ _ (requireOrder_ok ho)
  exact hok.put ⟨rfl, rfl⟩ rfl (hs.congr (p := { o with state := target }) rfl hs.leg_le)

/-- A second `OrderSubmitted` for an order with fills keeps its instrument. -/
def resubmitKeepsLegs (st : AccountState) (o : Order) : Bool :=
  !st.filledQuantity.contains o.orderId ||
    ((st.orders.get o.orderId).any (·.instrument = o.instrument) && legsFit st o)

theorem onOrderSubmitted_legsOk {st st' : AccountState} {o : Order} (hpos : 0 < o.quantity.val)
    (hsafe : resubmitKeepsLegs st o = true) (hok : st.LegsOk)
    (h : onOrderSubmitted st o = .ok st') : st'.LegsOk := by
  simp only [onOrderSubmitted, bind_eq_ok, pure_eq_ok] at h
  obtain ⟨o', ho', _, -, rfl⟩ := h
  obtain ⟨s, rfl⟩ : ∃ s, o' = { o with state := s } := by
    split at ho'
    · exact ⟨_, (transitionTo_ok ho').1⟩
    · rw [pure_eq_ok] at ho'
      exact ⟨o.state, ho'.symm⟩
  refine hok.put ⟨rfl, rfl⟩ rfl ?_
  dsimp only
  simp only [resubmitKeepsLegs, Bool.or_eq_true, Bool.not_eq_true', Bool.and_eq_true,
    Option.any_eq_true, decide_eq_true_eq] at hsafe
  rcases hsafe with hnone | ⟨⟨p, hp, hi⟩, hfit⟩
  · have hnone : st.filledQuantity.get o.orderId = none := by
      simpa [OMap.contains] using hnone
    rw [hnone]
    exact .fresh (hok.unfilled _ hnone) hpos
  · exact (hok.stored _ _ hp).congr (p := { o with state := s }) hi.symm (legsFit_iff.mp hfit)

/-! ## Fills -/

theorem recordFilled_leg {st st' : AccountState} {o : Order} {f : Fill} {index : Int} {l : ComboLeg}
    {legs : List ComboLeg} (hlegs : o.instrument = .combo legs) :
    recordFilled A st o (some (index, l)) f = .ok st' ↔ ∃ now ordered best,
      Ops.add A ((st.legFilled.get (legHk f.orderId index)).getD .zero) f.quantity = .ok now ∧
      Ops.mulI A o.quantity l.ratio = .ok ordered ∧ ¬ now.gt ordered = true ∧
      comboUnits A (st.legFilled.insert (legHk f.orderId index) (f.orderId, index) now) f.orderId
        legs 0 none = .ok (some best) ∧
      { st with legFilled := st.legFilled.insert (legHk f.orderId index) (f.orderId, index) now
                filledQuantity := st.filledQuantity.put f.orderId best } = st' := by
  simp only [recordFilled, hlegs, bind_eq_ok, refuseIf_eq_ok]
  constructor
  · rintro ⟨now, hnow, ordered, hord, _, hle, best, hbest, h⟩
    cases best with
    | none => simp at h
    | some b =>
        rw [pure_eq_ok] at h
        exact ⟨now, ordered, b, hnow, hord, hle, hbest, h⟩
  · rintro ⟨now, ordered, b, hnow, hord, hle, hbest, h⟩
    exact ⟨now, hnow, ordered, hord, (), hle, some b, hbest, pure_eq_ok.mpr h⟩

/-- The units of a combo are the least of what was found so far and its legs' units. -/
theorem comboUnits_least {lf : OMap (String × Int) Money} {id : String} {legs : List ComboLeg}
    {k : Nat} {best : Option Money} {m : Money}
    (h : comboUnits A.exact lf id legs k best = .ok (some m)) :
    (∀ b, best = some b → m.val ≤ b.val) ∧
      (∀ i l, legs[i]? = some l →
        m.val ≤ ((lf.get (legHk id (k + i : Nat))).getD .zero).val / l.ratio) ∧
      (best = some m ∨ ∃ i l, legs[i]? = some l ∧
        m.val = ((lf.get (legHk id (k + i : Nat))).getD .zero).val / l.ratio) := by
  induction legs generalizing k best with
  | nil =>
      cases h
      exact ⟨fun b hb => by cases hb; exact le_refl _, fun i l hl => by simp at hl, Or.inl rfl⟩
  | cons l legs ih =>
      simp only [comboUnits, bind_eq_ok] at h
      obtain ⟨units, hunits, h⟩ := h
      have hval := Ops.exact_divI hunits
      obtain ⟨hbest, hlegs, hmem⟩ := ih (k := k + 1) h
      have hshift : ∀ i : Nat, k + 1 + i = k + (i + 1) := fun i => by omega
      -- the candidate carried on is the less of the two
      have hcarry : m.val ≤ units.val ∧ ∀ b, best = some b → m.val ≤ b.val := by
        cases best with
        | none => exact ⟨hbest units rfl, fun b hb => by cases hb⟩
        | some b =>
            have hb := hbest _ rfl
            dsimp only at hb
            split at hb
            · rename_i hlt
              rw [Money.lt_iff] at hlt
              exact ⟨hb, fun c hc => by cases hc; exact hb.trans hlt.le⟩
            · rename_i hlt
              rw [Money.lt_iff, not_lt] at hlt
              exact ⟨hb.trans hlt, fun c hc => by cases hc; exact hb⟩
      refine ⟨hcarry.2, fun i l' hl' => ?_, ?_⟩
      · cases i with
        | zero =>
            cases hl'
            rw [Nat.add_zero, ← hval]
            exact hcarry.1
        | succ i =>
            rw [← hshift i]
            exact hlegs i l' hl'
      · rcases hmem with hmem | ⟨i, l', hl', hm⟩
        · cases best with
          | none =>
              cases hmem
              exact Or.inr ⟨0, l, rfl, hval⟩
          | some b =>
              dsimp only at hmem
              split at hmem
              · cases hmem
                exact Or.inr ⟨0, l, rfl, hval⟩
              · exact Or.inl hmem
        · rw [hshift i] at hm
          exact Or.inr ⟨i + 1, l', hl', hm⟩

theorem comboLegIndex_nonneg {text : String} {n : Int} (h : comboLegIndex text = some n) : 0 ≤ n := by
  have hparse : ∀ {t : String} {m : Int}, parseI128 t = some m → 0 ≤ m := by
    intro t m ht
    unfold parseI128 at ht
    split at ht
    · cases ht
    · dsimp only at ht
      split at ht
      · cases ht
        exact Int.natCast_nonneg _
      · cases ht
  unfold comboLegIndex at h
  split at h
  · rename_i hp
    cases h
    exact hparse hp
  · split at h
    · cases h
      exact le_refl _
    · cases h

theorem comboLeg_some {o : Order} {f : Fill} {index : Int} {l : ComboLeg}
    (h : comboLeg o f = .ok (some (index, l))) :
    ∃ (legs : List ComboLeg) (i : Nat), o.instrument = .combo legs ∧ index = i ∧
      legs[i]? = some l := by
  unfold comboLeg at h
  cases hi : o.instrument with
  | single c => simp [hi] at h
  | combo legs =>
      simp only [hi] at h
      split at h
      · simp at h
      · rename_i n hn
        split at h
        · simp at h
        · rename_i leg hleg
          simp only [bind_eq_ok, pure_eq_ok, Option.some.injEq, Prod.mk.injEq] at h
          obtain ⟨_, -, _, -, rfl, rfl⟩ := h
          obtain ⟨text, -, htext⟩ := Option.bind_eq_some_iff.mp hn
          have hnonneg := comboLegIndex_nonneg htext
          exact ⟨legs, n.toNat, rfl, (Int.toNat_of_nonneg hnonneg).symm, hleg⟩

theorem comboLeg_none {o : Order} {f : Fill} (h : comboLeg o f = .ok none) : o.IsSingle := by
  unfold comboLeg at h
  cases hi : o.instrument with
  | single c => exact ⟨c, hi⟩
  | combo legs =>
      simp only [hi] at h
      split at h
      · simp at h
      · split at h
        · simp at h
        · simp [bind_eq_ok] at h

/-- The quantities of the fill's leg are computed without rounding. -/
def legsExact (A : Arith) (st : AccountState) (f : Fill) : Bool :=
  (st.orders.get f.orderId).all fun o =>
    match comboLeg o f with
    | .ok (some leg) => (recordFilled A.exact st o (some leg) f).isOk
    | _ => true

/-- A fill of one leg, in exact arithmetic: its own leg grows within its share, every other leg
stays, and the filled quantity becomes the least of the legs' units. -/
theorem legFill_legsOk {st st' : AccountState} {o : Order} {f : Fill} {i : Nat} {l : ComboLeg}
    {legs : List ComboLeg} (hlegs : o.instrument = .combo legs) (hl : legs[i]? = some l)
    (hok : st.LegsOk) (ho : st.orders.get f.orderId = some o)
    (h : recordFilled A.exact st o (some ((i : Int), l)) f = .ok st') : st'.LegsOk := by
  obtain ⟨now, ordered, best, hnow, hord, hle, hbest, rfl⟩ := (recordFilled_leg hlegs).mp h
  have hordered := Ops.exact_mulI hord
  rw [Money.gt_iff, not_lt, hordered] at hle
  have hget : ∀ id j, (st.legFilled.insert (legHk f.orderId i) (f.orderId, (i : Int)) now).get
      (legHk id (j : Nat)) = if id = f.orderId ∧ j = i then some now
        else st.legFilled.get (legHk id j) := by
    intro id j
    rw [OMap.get_insert]
    by_cases hc : id = f.orderId ∧ j = i
    · rw [if_pos hc, if_pos (by rw [hc.1, hc.2])]
    · rw [if_neg hc, if_neg fun hk => hc (legHk_inj hk)]
  obtain ⟨-, hlow, hmem⟩ := comboUnits_least (k := 0) hbest
  simp only [Nat.zero_add] at hlow hmem
  refine ⟨fun id p hp => ?_, fun id hid => ?_, fun id hid j => ?_⟩
  · dsimp only at hp ⊢
    by_cases hid : id = f.orderId
    · subst hid
      rw [ho] at hp
      cases hp
      have hstored := hok.stored _ _ ho
      refine ⟨fun legs' hlegs' j l' hl' => ?_, fun legs' hlegs' q hq => ?_⟩
      · rw [hlegs] at hlegs'
        cases hlegs'
        simp only [AccountState.legQty, hget, true_and]
        split
        · rename_i hj
          subst hj
          rw [hl] at hl'
          cases hl'
          exact hle
        · exact hstored.leg_le legs hlegs j l' hl'
      · rw [hlegs] at hlegs'
        cases hlegs'
        rw [OMap.get_put_self] at hq
        cases hq
        refine ⟨?_, ?_⟩
        · rcases hmem with hmem | hmem
          · cases hmem
          · exact hmem
        · rintro x ⟨j, l', hl', rfl⟩
          exact hlow j l' hl'
    · have hleg : ∀ j, ({ st with
          legFilled := st.legFilled.insert (legHk f.orderId i) (f.orderId, (i : Int)) now
          filledQuantity := st.filledQuantity.put f.orderId best } : AccountState).legQty id j =
            st.legQty id j := by
        intro j
        simp only [AccountState.legQty, hget, hid, false_and, if_false]
      rw [OMap.get_put_ne _ _ hid, funext hleg]
      exact hok.stored id p hp
  · dsimp only at hid ⊢
    have hne : id ≠ f.orderId := by
      rintro rfl
      rw [ho] at hid
      cases hid
    rw [OMap.get_put_ne _ _ hne]
    exact hok.unknown id hid
  · dsimp only at hid
    have hne : id ≠ f.orderId := by
      rintro rfl
      rw [OMap.get_put_self] at hid
      cases hid
    rw [OMap.get_put_ne _ _ hne] at hid
    simp only [AccountState.legQty, hget, hne, false_and, if_false]
    exact hok.unfilled id hid j

/-- A fill of an order on one contract touches no leg. -/
theorem singleFill_legsOk {st : AccountState} {o : Order} {id : String} {total : Money}
    (hs : o.IsSingle) (hok : st.LegsOk) (ho : st.orders.get id = some o) :
    { st with filledQuantity := st.filledQuantity.put id total }.LegsOk := by
  obtain ⟨c, hc⟩ := hs
  refine ⟨fun id' p hp => ?_, fun id' hid => ?_, fun id' hid j => ?_⟩
  · dsimp only at hp ⊢
    by_cases hid : id' = id
    · subst hid
      rw [ho] at hp
      cases hp
      have hnot : ∀ legs, o.instrument ≠ .combo legs := by
        intro legs hlegs
        rw [hc] at hlegs
        cases hlegs
      exact ⟨fun legs hlegs => absurd hlegs (hnot legs), fun legs hlegs => absurd hlegs (hnot legs)⟩
    · rw [OMap.get_put_ne _ _ hid]
      exact hok.stored id' p hp
  · dsimp only at hid ⊢
    have hne : id' ≠ id := by
      rintro rfl
      rw [ho] at hid
      cases hid
    rw [OMap.get_put_ne _ _ hne]
    exact hok.unknown id' hid
  · dsimp only at hid
    have hne : id' ≠ id := by
      rintro rfl
      rw [OMap.get_put_self] at hid
      cases hid
    rw [OMap.get_put_ne _ _ hne] at hid
    exact hok.unfilled id' hid j

theorem recordFilled_legsOk {st st' : AccountState} {o : Order} {f : Fill}
    {leg : Option (Int × ComboLeg)} {positions : OMap Instrument Position}
    (hleg : comboLeg o f = .ok leg) (hexact : legsExact A st f = true) (hok : st.LegsOk)
    (ho : st.orders.get f.orderId = some o)
    (h : recordFilled A { st with positions := positions } o leg f = .ok st') : st'.LegsOk := by
  cases leg with
  | none =>
      simp only [recordFilled, bind_eq_ok, pure_eq_ok] at h
      obtain ⟨total, -, rfl⟩ := h
      exact (@singleFill_legsOk st o f.orderId total (comboLeg_none hleg) hok ho).congr rfl rfl rfl
  | some leg =>
      obtain ⟨index, l⟩ := leg
      obtain ⟨legs, i, hlegs, rfl, hl⟩ := comboLeg_some hleg
      simp only [legsExact, ho, Option.all_some, hleg] at hexact
      cases hx : recordFilled A.exact st o (some ((i : Int), l)) f with
      | error x => rw [hx] at hexact; cases hexact
      | ok st₁ =>
          have hok₁ := legFill_legsOk hlegs hl hok ho hx
          have hcode := recordFilled_refuses A.exact_le st o _ f st₁ hx
          obtain ⟨now, _, best, hnow, _, _, hbest, rfl⟩ := (recordFilled_leg hlegs).mp hcode
          obtain ⟨now', _, best', hnow', _, _, hbest', rfl⟩ := (recordFilled_leg hlegs).mp h
          -- the positions are not read, so both computations are the same one
          dsimp only at hnow' hbest'
          rw [hnow] at hnow'
          cases hnow'
          rw [hbest] at hbest'
          cases hbest'
          exact hok₁.congr rfl rfl rfl

theorem onFill_legsOk {st st' : AccountState} {f : Fill} (hexact : legsExact A st f = true)
    (hok : st.LegsOk) (h : onFill A st f = .ok st') : st'.LegsOk := by
  simp only [onFill, bind_eq_ok, pure_eq_ok] at h
  obtain ⟨o, ho, leg, hleg, _, -, _, -, _, -, _, -, _, -, _, -, _, -, _, -, st₁, h₁, st₂, h₂, _, -, _, -,
    _, -, rfl⟩ := h
  have hg : st.orders.get f.orderId = some o := by
    split at ho
    · rw [pure_eq_ok] at ho
      subst ho
      assumption
    · simp [fe] at ho
  have hok₁ := recordFilled_legsOk hleg hexact hok hg h₁
  have hg₁ : st₁.orders.get f.orderId = some o := by
    rw [recordFilled_orders h₁]
    exact hg
  simp only [fillOrder, bind_eq_ok, pure_eq_ok] at h₂
  obtain ⟨_, -, _, -, moved, hmoved, rfl⟩ := h₂
  have hstored := hok₁.stored _ _ hg₁
  obtain ⟨s, rfl⟩ : ∃ s, moved = { o with state := s } := by
    unfold filledOrder at hmoved
    split at hmoved
    · cases hmoved
      exact ⟨o.state, rfl⟩
    · exact ⟨_, (transitionTo_ok hmoved).1⟩
  split
  · exact hok₁.congr rfl rfl rfl
  · refine hok₁.put ⟨rfl, rfl⟩ rfl ?_
    exact hstored.congr (p := { o with state := s }) rfl hstored.leg_le

/-! ## Runs -/

/-- The condition on one event: an amendment or a second submission of an order with fills leaves
every leg its share. -/
def amendKeepsLegs (st : AccountState) (e : Event) : Bool :=
  match e.payload with
  | .order o => resubmitKeepsLegs st o
  | .orderUpdated u => legsFit st u.order
  | _ => true

/-- Leg quantities are computed without rounding at this event. -/
def legsExactAt (A : Arith) (st : AccountState) (e : Event) : Bool :=
  match e.payload with
  | .fill f => legsExact A st f
  | _ => true

theorem applyEvent_legsOk {st st' : AccountState} {e : Event} (hsafe : amendKeepsLegs st e = true)
    (hexact : legsExactAt A st e = true) (hok : st.LegsOk) (h : applyEvent A st e = .ok st') :
    st'.LegsOk := by
  have hbuilt := e.built
  obtain ⟨st₁, hstep, rfl⟩ := applyEvent_orderStep h
  suffices hok₁ : st₁.LegsOk from hok₁.congr rfl rfl rfl
  unfold amendKeepsLegs at hsafe
  unfold legsExactAt at hexact
  cases hstep with
  | other same => exact hok.congr same.orders same.filledQuantity same.legFilled
  | created c hp h =>
      rw [hp] at hbuilt
      obtain ⟨_, hall, -⟩ := bind_eq_ok.mp hbuilt
      simp only [onOrdersCreated, bind_eq_ok, pure_eq_ok] at h
      obtain ⟨m, hm, rfl⟩ := h
      exact createOrders_legsOk (fun o ho => checkOrder_quantity (forM_ok hall o ho)) hok hm
  | submitted o hp h =>
      rw [hp] at hbuilt hsafe
      exact onOrderSubmitted_legsOk (checkOrder_quantity hbuilt) hsafe hok h
  | updated u hp h =>
      rw [hp] at hsafe
      exact onOrderUpdated_legsOk hsafe hok h
  | moved c target hp ht h => exact onOrderState_legsOk hok h
  | filled f hp h =>
      rw [hp] at hexact
      exact onFill_legsOk hexact hok h

theorem run_legsOk {es : List Event} {st st' : AccountState}
    (hsafe : everyStep A amendKeepsLegs st es = true)
    (hexact : everyStep A (legsExactAt A) st es = true) (hok : st.LegsOk)
    (h : es.foldlM (applyEvent A) st = .ok st') : st'.LegsOk := by
  induction es generalizing st with
  | nil => cases h; exact hok
  | cons e es ih =>
      simp only [List.foldlM_cons, bind_eq_ok] at h
      obtain ⟨st₁, h₁, h⟩ := h
      obtain ⟨hsafe₁, hsafe⟩ := everyStep_cons hsafe h₁
      obtain ⟨hexact₁, hexact⟩ := everyStep_cons hexact h₁
      exact ih hsafe hexact (applyEvent_legsOk hsafe₁ hexact₁ hok h₁) h

end TradeEngine
