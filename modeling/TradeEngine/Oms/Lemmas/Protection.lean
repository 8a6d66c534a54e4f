import TradeEngine.Oms.Lemmas.Writes

/-!
# Protecting a bracket

What a synchronisation does to the exits of an entry: the stop first, then the targets, each one
through its own order.
-/

namespace TradeEngine.Oms

open Lib Relation

variable {A : Arith} {P : String → Prop} {K : Core A → Prop} {H : Host}

/-! ## Open quantity -/

/-- The bracket of an entry has open quantity: the entry has filled more than its exits have. -/
def OpenIn (A : Arith) (st : AccountState) (entry : String) : Prop :=
  ∃ out, exited A st (children entry st.orders.values) = .ok out ∧ out.val < (st.filled entry).val

/-- The protective stop: the first stop among the exits. -/
def bracketStop (st : AccountState) (entry : String) : Option Order :=
  (children entry st.orders.values).find? (·.orderType = .stop)

theorem sum_exact {l : List Money} {r : Money} (h : sum A.exact l = .ok r) :
    r.val = (l.map Money.val).sum := by
  have hgen : ∀ {l : List Money} {s r : Money}, l.foldlM (Ops.add A.exact) s = .ok r →
      r.val = s.val + (l.map Money.val).sum := by
    intro l
    induction l with
    | nil =>
        intro s r h
        cases h
        simp
    | cons m l ih =>
        intro s r h
        simp only [List.foldlM_cons, bind_eq_ok] at h
        obtain ⟨t, ht, h⟩ := h
        rw [ih h, Ops.exact_add ht, List.map_cons, List.sum_cons]
        ring
  rw [hgen h, Money.val_zero, zero_add]

theorem sum_nonneg {D : RustDecimal} {l : List Money} {r : Money} (hl : ∀ m ∈ l, 0 ≤ m.val)
    (h : sum (.code D) l = .ok r) : 0 ≤ r.val := by
  refine foldlM_invariant (P := fun s : Money => 0 ≤ s.val) (fun s m s' hm hadd hs => ?_) h
    Money.val_zero.ge
  rw [Ops.add, except_mapError_eq_ok] at hadd
  exact Money.add_nonneg hs (hl m hm) hadd

theorem sum_refuses (l : List Money) : Refuses (sum A.exact l) (sum A l) :=
  Refuses.foldlM (Ops.add_refuses A.exact_le) l .zero

/-- The stop, the targets and the closers fill no more than all exits do. -/
theorem exits_le {f : Order → ℚ} (hf : ∀ o, 0 ≤ f o) {exits : List Order} {stop : Order}
    (hstop : exits.find? (·.orderType = .stop) = some stop) :
    f stop + ((exits.filter (·.orderType = .limit)).map f).sum +
      ((exits.filter (·.orderType = .market)).map f).sum ≤ (exits.map f).sum := by
  have hgen : ∀ l : List Order, ((l.filter (·.orderType = .limit)).map f).sum +
      ((l.filter (·.orderType = .market)).map f).sum ≤ (l.map f).sum := by
    intro l
    induction l with
    | nil => simp
    | cons o l ih =>
        have ho := hf o
        cases ht : o.orderType <;> simp [ht] <;> linarith
  induction exits with
  | nil => simp at hstop
  | cons o exits ih =>
      have ho := hf o
      have hl := hgen exits
      cases ht : o.orderType with
      | stop =>
          simp only [List.find?_cons, ht, decide_true, Option.some.injEq] at hstop
          subst hstop
          simp [ht]
          linarith
      | _ =>
          simp [ht] at hstop
          have := ih hstop
          simp [ht]
          linarith

/-- Nothing is rounded when the bracket's quantities are worked out. -/
def SyncExact (A : Arith) (st : AccountState) (entry : String) : Prop :=
  ∀ plan, sync A st entry = .ok (some plan) → sync A.exact st entry = .ok (some plan)

/-- What a plan says of the account it was made from. -/
structure SyncPlan.Of (plan : SyncPlan) (A : Arith) (st : AccountState) (entry : String) : Prop where
  stop : bracketStop st entry = some plan.stop
  targets : plan.targets = (children entry st.orders.values).filter (·.orderType = .limit)
  closers : plan.closers = (children entry st.orders.values).filter (·.orderType = .market)
  entryFilled : plan.entryFilled = st.filled entry
  stopFilled : plan.stopFilled = st.filled plan.stop.orderId
  left : ∃ out between, exited A st (plan.targets ++ plan.closers) = .ok out ∧
    Ops.sub A plan.entryFilled plan.stopFilled = .ok between ∧ Ops.sub A between out = .ok plan.left

theorem sync_some {st : AccountState} {entry : String} {plan : SyncPlan}
    (hids : ∀ id o, st.orders.get id = some o → o.orderId = id)
    (h : sync A st entry = .ok (some plan)) : plan.Of A st entry := by
  unfold sync at h
  split at h
  · simp at h
  · rename_i o ho
    have hid := hids _ _ ho
    subst hid
    dsimp only at h
    split at h
    · cases h
    · rename_i stop hstop
      simp only [bind_eq_ok] at h
      obtain ⟨_, -, _, -, h⟩ := h
      split at h
      · cases h
      · simp only [bind_eq_ok, pure_eq_ok, Option.some.injEq] at h
        obtain ⟨out, hout, between, hbetween, left, hleft, _, -, rfl⟩ := h
        exact ⟨hstop, rfl, rfl, rfl, rfl, out, between, hout, hbetween, hleft⟩

theorem sync_none {st : AccountState} {entry : String} {stop : Order}
    (hids : ∀ id o, st.orders.get id = some o → o.orderId = id)
    (h : sync A st entry = .ok none) (hstop : bracketStop st entry = some stop) :
    (st.filled entry).val = 0 := by
  unfold sync at h
  split at h
  · simp at h
  · rename_i o ho
    have hid := hids _ _ ho
    subst hid
    dsimp only at h
    split at h
    · rename_i hnone
      rw [bracketStop, hnone] at hstop
      cases hstop
    · simp only [bind_eq_ok] at h
      obtain ⟨_, -, _, -, h⟩ := h
      split at h
      · rename_i hz
        rw [Bool.and_eq_true, Money.eqNum_iff, Money.val_zero] at hz
        exact hz.1
      · simp only [bind_eq_ok, pure_eq_ok, reduceCtorEq, and_false, exists_false] at h

theorem exited_exact {st : AccountState} {exits : List Order} {out : Money}
    (h : exited A.exact st exits = .ok out) :
    out.val = (exits.map fun o => (st.filled o.orderId).val).sum := by
  rw [sum_exact h, List.map_map]
  rfl

/-- A bracket with open quantity has something left for its stop. -/
theorem left_pos {st : AccountState} {entry : String} {plan : SyncPlan}
    (hids : ∀ id o, st.orders.get id = some o → o.orderId = id) (hnonneg : st.FillsNonneg)
    (hexact : SyncExact A st entry) (h : sync A st entry = .ok (some plan))
    (hopen : OpenIn A st entry) : 0 < plan.left.val ∧ 0 < plan.entryFilled.val := by
  obtain ⟨out, hout, hlt⟩ := hopen
  have hex := hexact plan h
  obtain ⟨hstop, htargets, hclosers, hentry, hstopf, tout, between, htout, hbetween, hleft⟩ :=
    sync_some hids hex
  -- the first sum of the exact plan is the sum the open quantity is read from
  have hall : exited A.exact st (children entry st.orders.values) = .ok out := by
    unfold sync at hex
    split at hex
    · simp at hex
    · rename_i o ho
      have hid := hids _ _ ho
      subst hid
      dsimp only at hex
      rw [show (children o.orderId st.orders.values).find? (·.orderType = .stop) = some plan.stop
        from hstop] at hex
      simp only [bind_eq_ok] at hex
      obtain ⟨out', hout', -⟩ := hex
      have heq := sum_refuses _ out' hout'
      rw [show sum A _ = exited A st _ from rfl, hout] at heq
      cases heq
      exact hout'
  have hle := exits_le (f := fun o => (st.filled o.orderId).val) (fun o => hnonneg.orders _) hstop
  have hval : plan.left.val = (st.filled entry).val - (st.filled plan.stop.orderId).val -
      (((children entry st.orders.values).filter (·.orderType = .limit)).map
          fun o => (st.filled o.orderId).val).sum -
      (((children entry st.orders.values).filter (·.orderType = .market)).map
          fun o => (st.filled o.orderId).val).sum := by
    rw [Ops.exact_sub hleft, Ops.exact_sub hbetween, exited_exact htout, htargets, hclosers, hentry,
      hstopf, List.map_append, List.sum_append]
    ring
  have hsum := exited_exact hall
  have hnn : 0 ≤ out.val := by
    rw [hsum]
    refine List.sum_nonneg fun x hx => ?_
    obtain ⟨o, -, rfl⟩ := List.mem_map.mp hx
    exact hnonneg.orders _
  rw [hentry, hval]
  constructor <;> linarith

/-! ## Sizing one exit -/

theorem submitChild_writes {child order : Order} (hP : P child.orderId)
    (hid : child.orderId = order.orderId) :
    Writes A P (Current order) (submitChild H child) fun _ c => ∃ o, Current o c ∧ Sends order o ∧
      (child.orderType = .stop → order.state = .new → o.state ≠ .rejected) := by
  refine getOrder_walks.bind fun current => ?_
  refine Walks.assume (fun c hc => hc.1.read (hid ▸ hc.2)) fun hcur => ?_
  subst hcur
  refine Walks.ite (fun hnew => ?_) fun hne => ?_
  · refine ((submit_writes (hid ▸ hP)).pre fun c hc => hc.1).bind fun submitted => ?_
    refine Walks.lift.post fun _ c hc => ⟨submitted, hc.1.1, hc.1.2, fun ht _ hrej => ?_⟩
    have hcheck := hc.2
    rw [stopRejected, refuseIf_eq_ok] at hcheck
    exact hcheck ⟨ht, hrej⟩
  · exact Walks.pure fun c hc => ⟨current, hc.1, .refl _, fun _ hnew => absurd hnew hne⟩

/-- The ways an exit is sized to `q` beyond what it has filled. -/
inductive Sizing (A : Arith) (o : Order) (filled q : Money) : ChildPlan → Prop where
  | rejected (hs : o.state = .rejected) (ht : o.orderType ≠ .stop) : Sizing A o filled q .ret
  | sized (total : Money) (hadd : Ops.add A filled q = .ok total) (hq : o.quantity = total)
      (hne : o.state ≠ .new) (hs : o.state = .expired ∨ terminal o.state = false) :
      Sizing A o filled q .ret
  | submit (total : Money) (hadd : Ops.add A filled q = .ok total) (hq : o.quantity = total)
      (hnew : o.state = .new) : Sizing A o filled q .submit
  | «local» (total : Money) (hadd : Ops.add A filled q = .ok total) (hnew : o.state = .new) :
      Sizing A o filled q (.local total)
  | replace (total : Money) (hadd : Ops.add A filled q = .ok total) (hne : o.state ≠ .new)
      (hs : o.state = .expired ∨ terminal o.state = false) : Sizing A o filled q (.replace total)

theorem childQuantity_sizing {o : Order} {filled q : Money} {plan : ChildPlan}
    (h : childQuantity A o filled q = .ok plan) : Sizing A o filled q plan := by
  have hrest : (o.state = .expired ∨ terminal o.state = false) → (do
      quantity (isEquity o.instrument) q
      let total ← Ops.add A filled q
      pure (if o.quantity.eqNum total then (if o.state = OrderState.new then ChildPlan.submit else .ret)
        else if o.state = OrderState.new then .local total else .replace total)) = .ok plan →
      Sizing A o filled q plan := by
    intro hs h
    simp only [bind_eq_ok, pure_eq_ok] at h
    obtain ⟨_, -, total, hadd, rfl⟩ := h
    by_cases hq : o.quantity.eqNum total = true
    · rw [if_pos hq]
      have hq' : o.quantity = total := Money.val_injective (Money.eqNum_iff.mp hq)
      by_cases hnew : o.state = .new
      · rw [if_pos hnew]
        exact .submit total hadd hq' hnew
      · rw [if_neg hnew]
        exact .sized total hadd hq' hnew hs
    · rw [if_neg hq]
      by_cases hnew : o.state = .new
      · rw [if_pos hnew]
        exact .local total hadd hnew
      · rw [if_neg hnew]
        exact .replace total hadd hnew hs
  unfold childQuantity at h
  cases hs : o.state with
  | rejected =>
      rw [hs] at h
      dsimp only at h
      split at h
      · simp [management] at h
      · rename_i ht
        cases h
        exact .rejected hs ht
  | cancelled => simp [hs, management] at h
  | filled => simp [hs, management] at h
  | expired => exact hrest (Or.inl hs) (by rw [hs] at h ⊢; exact h)
  | new => exact hrest (Or.inr (by rw [hs]; rfl)) (by rw [hs] at h ⊢; exact h)
  | submitted => exact hrest (Or.inr (by rw [hs]; rfl)) (by rw [hs] at h ⊢; exact h)
  | accepted => exact hrest (Or.inr (by rw [hs]; rfl)) (by rw [hs] at h ⊢; exact h)
  | partiallyFilled => exact hrest (Or.inr (by rw [hs]; rfl)) (by rw [hs] at h ⊢; exact h)
  | pendingUnknown => exact hrest (Or.inr (by rw [hs]; rfl)) (by rw [hs] at h ⊢; exact h)

/-- An exit sized to `q` beyond its fills: live if `live`, of the right quantity if `sized`. -/
def Sized (A : Arith) (live sized : Prop) (filled q : Money) (id : String) (c : Core A) : Prop :=
  ∃ o, Current o c ∧ o.orderId = id ∧ (live → terminal o.state = false) ∧
    (sized → Ops.add A filled q = .ok o.quantity)

/-- What has to be so for an exit to come out live, and of the right quantity. -/
structure Sizable (live sized : Prop) (ctx : Context) (q : Money) (command : String) (c : Core A) :
    Prop where
  found : c.ledger.context? ctx.order.orderId = some ctx
  isStop : live → ctx.order.orderType = .stop
  surfaces : live → ctx.order.state = .expired → Unrequested command c ∧
    Ops.add A ctx.filled q ≠ .ok ctx.order.quantity
  notRejected : sized → ctx.order.state = .rejected → ctx.order.orderType = .stop
  fresh : sized → Fresh command c ∧ c.ledger.byCommand (command ++ ":local-size") = none

theorem Sends.sized {live sized : Prop} {order o : Order} {filled q : Money} {c : Core A}
    (hs : Sends order o) (hcur : Current o c) (hnew : order.state = .new)
    (hrej : live → o.state ≠ .rejected) (hq : sized → Ops.add A filled q = .ok order.quantity) :
    Sized A live sized filled q order.orderId c := by
  obtain ⟨s, rfl, hs⟩ := hs
  refine ⟨_, hcur, rfl, fun hl => ?_, hq⟩
  rcases hs with rfl | ⟨-, rfl | rfl | rfl⟩
  · dsimp only
    rw [hnew]
    rfl
  · rfl
  · exact absurd rfl (hrej hl)
  · rfl

theorem ensureChildQuantity_writes {live sized : Prop} {child : Order} {ctx : Context} {q : Money}
    {command : String} (hid : child.orderId = ctx.order.orderId) (hP : P child.orderId)
    (haccepts : sized → AcceptsReplaces H) :
    Writes A P (Sizable live sized ctx q command) (ensureChildQuantity H child q command)
      fun _ => Sized A live sized ctx.filled q child.orderId := by
  rw [hid] at hP
  unfold ensureChildQuantity
  rw [hid]
  refine context_walks.bind fun found => ?_
  refine Walks.assume (fun c hc => Option.some.inj (hc.2.symm.trans hc.1.found)) fun hfound => ?_
  subst hfound
  refine Walks.lift.bind fun plan => Walks.assume (fun c hc => childQuantity_sizing hc.2) fun hplan => ?_
  have hcurrent : ∀ {c : Core A}, Sizable live sized found q command c → Current found.order c :=
    fun hc => .of_context hc.found
  cases hplan with
  | rejected hs ht =>
      refine Walks.pure fun c hc => ⟨found.order, hcurrent hc.1.1, rfl, fun hl => ?_, fun hz => ?_⟩
      · exact absurd (hc.1.1.isStop hl) ht
      · exact absurd (hc.1.1.notRejected hz hs) ht
  | sized total hadd hq hne hs =>
      refine Walks.pure fun c hc => ⟨found.order, hcurrent hc.1.1, rfl, fun hl => ?_, fun _ => hq ▸ hadd⟩
      rcases hs with hs | hs
      · exact absurd (hq ▸ hadd) (hc.1.1.surfaces hl hs).2
      · exact hs
  | submit total hadd hq hnew =>
      refine Walks.assume (fun c hc => hc.1.1.isStop) fun hstop => ?_
      refine (submitChild_writes hP rfl).weaken (fun c hc => hcurrent hc.1.1) ?_
      rintro _ c ⟨o, hcur, hsend, hrej⟩
      exact hsend.sized hcur hnew (fun hl => hrej (hstop hl) hnew) fun _ => hq ▸ hadd
  | «local» total hadd hnew =>
      refine Walks.assume (fun c hc => hc.1.1.isStop) fun hstop => ?_
      refine Walks.bind (Q := fun _ c => ∃ o, Current o c ∧ o.orderId = found.order.orderId ∧
        o.orderType = found.order.orderType ∧ o.state = .new ∧ (sized → o.quantity = total)) ?_ fun _ => ?_
      · refine append_writes rfl (fun _ _ hs => setsState_updated hs ▸ hP) (fun c c' hc h => ?_) ?_
        · exact ⟨_, (hcurrent hc.1.1).updated h rfl, rfl, rfl, hnew, fun _ => rfl⟩
        · rintro c hc ⟨prior, hprior, -⟩
          refine ⟨_, hcurrent hc.1.1, rfl, rfl, hnew, fun hz => ?_⟩
          rw [(hc.1.1.fresh hz).2] at hprior
          cases hprior
      · refine Walks.bind (Q := fun o c => Current o c ∧ o.orderId = found.order.orderId ∧
          o.orderType = found.order.orderType ∧ o.state = .new ∧ (sized → o.quantity = total)) ?_ fun again => ?_
        · refine getOrder_walks.post ?_
          rintro o c ⟨⟨p, hcur, hpid, hp⟩, ho⟩
          rw [← hpid] at ho
          rw [hcur.read ho]
          exact ⟨hcur, hpid, hp⟩
        · refine Walks.assume (fun c hc => hc.2) fun hagain => ?_
          obtain ⟨hagid, htype, hagnew, hagq⟩ := hagain
          rw [← hagid] at hP ⊢
          refine (submitChild_writes hP rfl).weaken (fun c hc => hc.1) ?_
          rintro _ c ⟨o, hcur, hsend, hrej⟩
          refine hsend.sized hcur hagnew (fun hl => hrej (htype.trans (hstop hl)) hagnew) fun hz => ?_
          rw [hagq hz]
          exact hadd
  | replace total hadd hne hs =>
      refine Walks.bind (Q := fun _ => Resized live sized found.order ⟨some total, none, none⟩) ?_ fun _ =>
        Walks.pure ?_
      · refine (replace_writes hP haccepts).pre fun c hc => ⟨hcurrent hc.1.1, fun hl ht => ?_, fun hz =>
          (hc.1.1.fresh hz).1⟩
        rcases hs with hs | hs
        · exact (hc.1.1.surfaces hl hs).1
        · rw [hs] at ht
          cases ht
      · rintro c ⟨o, hcur, hoid, hl, hz⟩
        exact ⟨o, hcur, hoid, hl, fun h => by rw [hz h]; exact hadd⟩

/-! ## The exits of a bracket -/

theorem Writes.mono {α : Type} {Q : α → Core A → Prop} {p : M A α} (h : Writes A P K p Q)
    (P' : String → Prop) (hP : ∀ id, P id → P' id) : Writes A P' K p Q := by
  intro w hw
  have hpath : ∀ {c c' : Core A}, ReflTransGen (Write P) c c' → ReflTransGen (Write P') c c' :=
    fun hpath => hpath.lift id fun _ _ hstep => hstep.mono hP
  refine (h w hw).weaken (fun _ _ hr => ⟨hpath hr.1, hr.2⟩) fun _ _ he => ?_
  obtain ⟨m, hm, hlast⟩ := he
  exact ⟨m, hpath hm, hlast.imp id fun hstep => hstep.mono hP⟩

theorem ensureChildQuantity_touch {child : Order} {q : Money} {command : String}
    (hP : P child.orderId) : Touch A P (ensureChildQuantity H child q command) := by
  intro w _
  by_cases h : ∃ ctx, w.core.ledger.context? child.orderId = some ctx
  · obtain ⟨ctx, hctx⟩ := h
    have hid := (Ledger.context_held hctx).2
    have hwrites : Writes A P (Sizable False False ctx q command) (ensureChildQuantity H child q command)
        fun _ _ => True :=
      (ensureChildQuantity_writes hid.symm hP fun h => h.elim).post fun _ _ _ => trivial
    exact hwrites w ⟨hid.symm ▸ hctx, fun h => h.elim, fun h => h.elim, fun h => h.elim, fun h => h.elim⟩
  · have hwrites : Writes A P (fun c => c = w.core) (ensureChildQuantity H child q command)
        fun _ _ => True := by
      refine context_walks.bind fun ctx => ?_
      rintro w' ⟨hw', hctx⟩
      exact absurd ⟨ctx, hw' ▸ hctx⟩ h
    exact hwrites w rfl

theorem sizeTarget_touch {cause : String} {item : Order × Money} (hP : P item.1.orderId) :
    Touch A P (sizeTarget H cause item) := by
  refine Walks.ite (fun _ => Walks.ite (fun _ => ensureChildQuantity_touch hP) fun _ => ?_) fun _ =>
    Walks.pure fun _ _ => trivial
  exact (cancelOrder_writes hP).bind fun _ => Walks.pure fun _ _ => trivial

theorem sizeTargets_touch {entry : Order} {plan : SyncPlan} {cause : String}
    (hP : ∀ o ∈ plan.targets, P o.orderId) : Touch A P (sizeTargets H entry plan cause) := by
  refine (Touch.of_still still_plannedQuantities).bind fun weights => ?_
  refine (Touch.of_still still_read).bind fun planned => (Touch.of_still still_lift).bind fun _ => ?_
  refine (Touch.of_still still_lift).bind fun budgets => ?_
  refine Walks.forEach fun item hitem => sizeTarget_touch (hP _ ?_)
  exact (List.of_mem_zip hitem).1

theorem cancelExits_touch {exits : List Order} {command : String} (hP : ∀ o ∈ exits, P o.orderId) :
    Touch A P (cancelExits H exits command) :=
  Walks.forEach fun o ho => (cancelExit_writes (hP o ho)).post fun _ _ _ => trivial

/-- The ids of the exits. -/
def exitIds (st : AccountState) (entry : String) : List String :=
  (children entry st.orders.values).map (·.orderId)

theorem stable_sized {live sized : Prop} {filled q : Money} {id : String} (hid : ¬ P id) :
    Stable (Write P) (Sized A live sized filled q id) := by
  rintro c c' hw ⟨o, hcur, rfl, ho⟩
  exact ⟨o, stable_current hid c c' hw hcur, rfl, ho⟩

theorem eq_of_orderId {st : AccountState} (hids : ∀ id o, st.orders.get id = some o → o.orderId = id)
    {o p : Order} (ho : o ∈ st.orders.values) (hp : p ∈ st.orders.values)
    (h : o.orderId = p.orderId) : o = p := by
  have hget : ∀ {x : Order}, x ∈ st.orders.values → st.orders.get x.orderId = some x := by
    intro x hx
    obtain ⟨e, he, rfl⟩ := List.mem_map.mp hx
    have hx := OMap.get_of_mem he
    rw [hids _ _ hx]
    exact hx
  have heq := hget ho
  rw [h, hget hp] at heq
  exact (Option.some.inj heq).symm

/-- The stop is none of the orders that are written to after it. -/
theorem SyncPlan.Of.stop_apart {plan : SyncPlan} {st : AccountState} {entry : String}
    (hids : ∀ id o, st.orders.get id = some o → o.orderId = id) (h : plan.Of A st entry) :
    ∀ o ∈ plan.targets ++ plan.closers, o.orderId ≠ plan.stop.orderId := by
  intro o ho heq
  have hstop := List.mem_of_find?_eq_some h.stop
  have htype := List.find?_some h.stop
  rw [h.targets, h.closers, List.mem_append, List.mem_filter, List.mem_filter] at ho
  have hmem : o ∈ children entry st.orders.values := ho.elim And.left And.left
  cases eq_of_orderId hids (List.mem_of_mem_filter hmem) (List.mem_of_mem_filter hstop) heq
  simp only [decide_eq_true_eq] at ho htype
  rcases ho with ho | ho <;> rw [htype] at ho <;> cases ho.2

/-- A plan with something left sizes the stop, and nothing that follows writes to it. -/
theorem settle_protects (sized : Prop) (cause : String) {entry : Order} {plan : SyncPlan}
    {st : AccountState} {ctx : Context}
    (hids : ∀ id o, st.orders.get id = some o → o.orderId = id) (hplan : plan.Of A st entry.orderId)
    (hmode : syncMode plan.entryFilled plan.left = true) (hctx : plan.stop.orderId = ctx.order.orderId)
    (haccepts : sized → AcceptsReplaces H) :
    Writes A (· ∈ exitIds st entry.orderId)
      (Sizable True sized ctx plan.left (cause ++ ":" ++ plan.stop.orderId ++ ":protective-stop"))
      (do
        settleExits H entry plan cause
        if isPositive plan.stopFilled then
          cancelExits H (plan.targets ++ plan.closers) (cause ++ ":" ++ plan.stop.orderId ++ ":stop-fill")
        else pure ())
      fun _ => Sized A True sized ctx.filled plan.left plan.stop.orderId := by
  have hapart := hplan.stop_apart hids
  let others : String → Prop := fun id => ∃ o ∈ plan.targets ++ plan.closers, o.orderId = id
  have hnot : ¬ others plan.stop.orderId := fun ⟨o, ho, heq⟩ => hapart o ho heq
  have hin : ∀ id, others id → id ∈ exitIds st entry.orderId := by
    rintro _ ⟨o, ho, rfl⟩
    refine List.mem_map_of_mem ?_
    rw [hplan.targets, hplan.closers, List.mem_append] at ho
    exact ho.elim List.mem_of_mem_filter List.mem_of_mem_filter
  have hkeeps : ∀ {p : M A Unit}, Touch A others p → Writes A (· ∈ exitIds st entry.orderId)
      (Sized A True sized ctx.filled plan.left plan.stop.orderId) p
      fun _ => Sized A True sized ctx.filled plan.left plan.stop.orderId := fun h =>
    Writes.mono (h.keeps (stable_sized hnot)) _ hin
  have hstop : plan.stop.orderId ∈ exitIds st entry.orderId :=
    List.mem_map_of_mem (List.mem_of_find?_eq_some hplan.stop)
  refine Walks.bind (Q := fun _ => Sized A True sized ctx.filled plan.left plan.stop.orderId) ?_ fun _ => ?_
  · unfold settleExits
    rw [if_pos hmode]
    refine (ensureChildQuantity_writes hctx hstop haccepts).bind fun _ => Walks.ite (fun _ => ?_) fun _ =>
      Walks.pure fun _ hc => hc
    exact hkeeps (sizeTargets_touch fun o ho => ⟨o, List.mem_append_left _ ho, rfl⟩)
  · refine Walks.ite (fun _ => hkeeps (cancelExits_touch fun o ho => ⟨o, ho, rfl⟩)) fun _ =>
      Walks.pure fun _ hc => hc

/-! ## A synchronisation -/

/-- The entry whose bracket a change of an order synchronises. -/
def EntryOf (l : Ledger A) (changed entry : Order) : Prop :=
  match changed.parentOrderId with
  | some parent => l.getOrder parent = .ok entry
  | none => entry = changed

/-- What a synchronisation is asked to see: the bracket's own stop under its id, quantities that
nothing rounds, and no expired stop that is already of the size asked for, or whose replace is
already stored. -/
structure Surfaces (l : Ledger A) (entry stop : Order) (cause : String) : Prop where
  found : l.At entry.accountId stop.orderId
  exact : SyncExact A (l.state entry.accountId) entry.orderId
  unrequested : stop.state = .expired →
    l.byCommand (cause ++ ":" ++ stop.orderId ++ ":protective-stop" ++ ":pending") = none ∧
    l.byCommand (cause ++ ":" ++ stop.orderId ++ ":protective-stop" ++ ":noop") = none
  unsized : stop.state = .expired → ∀ plan,
    sync A (l.state entry.accountId) entry.orderId = .ok (some plan) →
    Ops.add A plan.stopFilled plan.left ≠ .ok stop.quantity

/-- Open quantity is read from the exits' ids and the fills. -/
theorem OpenIn.congr {st st' : AccountState} {entry : String} (h : OpenIn A st entry)
    (hids : exitIds st' entry = exitIds st entry) (hfilled : ∀ id, st'.filled id = st.filled id) :
    OpenIn A st' entry := by
  obtain ⟨out, hout, hlt⟩ := h
  have hsum : ∀ st'' : AccountState, exited A st'' (children entry st''.orders.values) =
      sum A ((exitIds st'' entry).map st''.filled) := fun st'' => by
    rw [exited, exitIds, List.map_map]
    rfl
  refine ⟨out, ?_, ?_⟩
  · rw [hsum, hids, List.map_congr_left fun id _ => hfilled id, ← hsum]
    exact hout
  · rw [hfilled]
    exact hlt

/-- A synchronisation records no fill and brings no order. -/
theorem synchronizeBracket_touch {changed : Order} {cause : String} :
    Touch A (fun _ => True) (synchronizeBracket H changed cause) := by
  refine Walks.bind (Q := fun _ _ => True) ?_ fun entry => ?_
  · cases changed.parentOrderId with
    | some parent => exact Touch.of_still still_read
    | none => exact Touch.of_still still_pure
  refine (Touch.of_still still_read).bind fun st => (Touch.of_still still_lift).bind fun plan => ?_
  cases plan with
  | none => exact Walks.pure fun _ _ => trivial
  | some plan =>
      refine Walks.bind (Q := fun _ _ => True) ?_ fun _ => ?_
      · refine Walks.ite (fun _ => ?_) fun _ => cancelExits_touch fun _ _ => trivial
        refine (ensureChildQuantity_touch trivial).bind fun _ => Walks.ite (fun _ => ?_) fun _ =>
          Walks.pure fun _ _ => trivial
        exact sizeTargets_touch fun _ _ => trivial
      · exact Walks.ite (fun _ => cancelExits_touch fun _ _ => trivial) fun _ =>
          Walks.pure fun _ _ => trivial

theorem Ledger.fillsNonneg {D : RustDecimal} (l : Ledger (.code D)) (a : String) :
    (l.state a).FillsNonneg := by
  obtain ⟨es, -, hrun⟩ := run_of_extends (l := (empty : Ledger (.code D))) List.nil_prefix a
  exact run_fillsNonneg hrun (.new a)

theorem Ledger.orderIds (l : Ledger A) (a : String) :
    ∀ id o, (l.state a).orders.get id = some o → o.orderId = id := fun _ _ h => (held_ids h).1

theorem Ledger.bracketStop_held {l : Ledger A} {a entry : String} {stop : Order}
    (h : bracketStop (l.state a) entry = some stop) : l.held a stop.orderId = some stop := by
  obtain ⟨e, he, rfl⟩ := List.mem_map.mp (List.mem_of_mem_filter (List.mem_of_find?_eq_some h))
  have hget := OMap.get_of_mem he
  rw [Ledger.held, l.orderIds a _ _ hget]
  exact hget

/-- A synchronisation that returns leaves the stop of a bracket with open quantity live. -/
theorem synchronizeBracket_protects {D : RustDecimal} {l : Ledger (.code D)}
    {changed entry stop : Order} {cause : String} (hentry : EntryOf l changed entry)
    (hstop : bracketStop (l.state entry.accountId) entry.orderId = some stop)
    (hs : Surfaces l entry stop cause)
    (hopen : OpenIn (.code D) (l.state entry.accountId) entry.orderId) :
    Writes (.code D) (fun _ => True) (fun c => c.ledger = l) (synchronizeBracket H changed cause)
      fun _ c => ∃ o, c.ledger.held entry.accountId stop.orderId = some o ∧ terminal o.state = false := by
  have hids := l.orderIds entry.accountId
  refine Walks.bind (Q := fun found c => c.ledger = l ∧ found = entry) ?_ fun found => ?_
  · cases hparent : changed.parentOrderId with
    | some parent =>
        simp only [EntryOf, hparent] at hentry
        refine getOrder_walks.post ?_
        rintro o c ⟨rfl, ho⟩
        rw [hentry] at ho
        exact ⟨rfl, (Except.ok.inj ho).symm⟩
    | none =>
        simp only [EntryOf, hparent] at hentry
        exact Walks.pure fun c hc => ⟨hc, hentry.symm⟩
  refine Walks.assume (fun c hc => hc.2) fun hfound => ?_
  subst hfound
  refine accountState_walks.bind fun st => Walks.lift.bind fun plan => ?_
  refine Walks.assume (fun c hc => show st = l.state found.accountId from ?_) fun hst => ?_
  · rw [← hc.1.2, hc.1.1.1]
  subst hst
  refine Walks.assume (fun c hc => hc.2) fun hsync => ?_
  cases plan with
  | none =>
      -- nothing has filled, so nothing is open
      obtain ⟨out, hout, hlt⟩ := hopen
      rw [sync_none hids hsync hstop] at hlt
      refine absurd hlt (not_lt.mpr (sum_nonneg (fun m hm => ?_) hout))
      obtain ⟨o, -, rfl⟩ := List.mem_map.mp hm
      exact (l.fillsNonneg _).orders _
  | some plan =>
      have hplan := sync_some hids hsync
      cases hplan.stop.symm.trans hstop
      obtain ⟨hleft, hfilled⟩ := left_pos hids (l.fillsNonneg _) hs.exact hsync hopen
      have hmode : syncMode plan.entryFilled plan.left = true := by
        rw [syncMode, Bool.and_eq_true, Money.gt_iff, Money.gt_iff, Money.val_zero]
        exact ⟨hfilled, hleft⟩
      obtain ⟨ctx, hctx, hacc⟩ := hs.found
      have horder : ctx.order = plan.stop := by
        have hheld := (Ledger.context_held hctx).1
        rw [hacc, Ledger.bracketStop_held hplan.stop] at hheld
        exact (Option.some.inj hheld).symm
      have hfill : ctx.filled = plan.stopFilled := by
        rw [Ledger.context_filled hctx, hacc, hplan.stopFilled]
      have hsettle := (settle_protects (H := H) False cause hids hplan hmode (by rw [horder])
        fun h => h.elim).mono (fun _ => True) fun _ _ => trivial
      have hat : Stable (Write fun _ => True) fun c : Core (.code D) =>
        c.ledger.At found.accountId plan.stop.orderId := stable_at
      refine (hsettle.keep hat).weaken
        (fun c hc => ?_) ?_
      · have hl : c.ledger = l := hc.1.1.1
        refine ⟨⟨by rw [hl, horder]; exact hctx, fun _ => ?_, fun _ hexp => ⟨?_, ?_⟩, fun h => h.elim,
          fun h => h.elim⟩, hl ▸ hs.found⟩
        · have htype := List.find?_some (show (children _ _).find? _ = some plan.stop from hplan.stop)
          rw [horder]
          exact of_decide_eq_true htype
        · rw [horder] at hexp
          rw [Unrequested, hl]
          exact hs.unrequested hexp
        · rw [horder] at hexp ⊢
          rw [hfill]
          exact hs.unsized hexp plan hsync
      · rintro _ c ⟨⟨o, hcur, hid, hlive, -⟩, hat⟩
        have hacc' : o.accountId = found.accountId := (hid ▸ hcur.at).unique hat
        exact ⟨o, hacc' ▸ hid ▸ hcur.held, hlive trivial⟩

/-! ## Cancelling the stop -/

theorem cancelProtective_of_open {st : AccountState} {entry stop : Order}
    (hopen : OpenIn A st entry.orderId) (hstop : stop ∈ children entry.orderId st.orders.values)
    (ht : stop.orderType = .stop) (hlive : terminal stop.state = false) :
    cancelProtective A st entry stop = .ok true := by
  obtain ⟨out, hout, hlt⟩ := hopen
  have hany : (children entry.orderId st.orders.values).any (·.orderType = .stop) = true :=
    List.any_eq_true.mpr ⟨stop, hstop, decide_eq_true ht⟩
  have hgt : (st.filled entry.orderId).gt out = true := Money.gt_iff.mpr hlt
  simp only [cancelProtective, hany, if_true, bind_eq_ok, pure_eq_ok]
  exact ⟨out, hout, by rw [hgt, hlive]; rfl⟩

section Protective

variable {command entry : String} {stop : Order}

/-- The manager finds the stop under its id, and its bracket has open quantity. -/
def Exposed (stop : Order) (entry : String) (c : Core A) : Prop :=
  c.ledger.getOrder stop.orderId = .ok stop ∧ OpenIn A (c.ledger.state stop.accountId) entry

theorem refuseProtective_writes (ht : stop.orderType = .stop)
    (hparent : stop.parentOrderId = some entry) (hlive : terminal stop.state = false) :
    Writes A (fun _ => False) (Exposed stop entry) (refuseProtective H stop command)
      fun _ _ => False := by
  have hprot : protectiveChild stop.parentOrderId stop.orderType = true := by rw [hparent, ht]; rfl
  unfold refuseProtective
  rw [if_pos hprot]
  refine accountState_walks.bind fun st => getOrder_current.bind fun found => ?_
  refine Walks.lift.bind fun unprotects => Walks.ite (fun _ => plannedRefusal_writes) fun hn => ?_
  rintro w ⟨⟨⟨⟨hnamed, hopen⟩, rfl⟩, -, hid⟩, hun⟩
  rw [hparent, Option.getD_some] at hid
  subst hid
  have hchild : stop ∈ children found.orderId (w.core.ledger.state stop.accountId).orders.values :=
    List.mem_filter.mpr ⟨OMap.mem_values_of_get (Current.of_getOrder (c := w.core) hnamed).held,
      decide_eq_true hparent⟩
  rw [cancelProtective_of_open hopen hchild ht hlive] at hun
  exact absurd (Except.ok.inj hun).symm hn

/-- While its bracket has open quantity, a live stop is not cancelled, and no order is written to. -/
theorem cancel_writes_none (ht : stop.orderType = .stop)
    (hparent : stop.parentOrderId = some entry) (hlive : terminal stop.state = false) :
    Writes A (fun _ => False) (Exposed stop entry) (cancel H stop.orderId command)
      fun _ _ => False := by
  refine getOrder_walks.bind fun order => Walks.bind (Q := fun _ _ => False) ?_ fun _ _ h => h.elim
  intro w hw
  cases hw.1.1.symm.trans hw.2
  exact refuseProtective_writes ht hparent hlive w hw.1

end Protective

end TradeEngine.Oms
