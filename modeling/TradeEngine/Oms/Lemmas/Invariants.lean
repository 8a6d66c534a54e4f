import TradeEngine.Oms.Lemmas.Walks

/-!
# Invariants of whole runs

A property that every step keeps holds after every sequence of commands, however each of them ended.
Three of them: an order is sent at most once, what the venue holds is accounted for, and the broker is
asked only about orders in doubt.
-/

namespace TradeEngine.Oms

open Lib Relation

variable {A : Arith} {G : Ledger A → String → List Order → Prop} {H : Host}

/-! ## Runs -/

/-- Every command meets `P` in the world it starts in. -/
def everyCommand (H : Host) (P : World A → Command → Prop) : World A → List Command → Prop
  | _, [] => True
  | w, command :: rest => P w command ∧ everyCommand H P (command.run H w).2 rest

theorem everyCommand_append {P : World A → Command → Prop} {w : World A} {cs ds : List Command} :
    everyCommand H P w (cs ++ ds) ↔
      everyCommand H P w cs ∧ everyCommand H P (cs.foldl (fun w c => (c.run H w).2) w) ds := by
  induction cs generalizing w with
  | nil => simp [everyCommand]
  | cons c cs ih => simp [everyCommand, ih, and_assoc]

theorem everyCommand_true (w : World A) (cs : List Command) :
    everyCommand H (fun _ _ => True) w cs := by
  induction cs generalizing w with
  | nil => trivial
  | cons c cs ih => exact ⟨trivial, ih _⟩

/-- One command keeps what its steps, and a last step cut short, keep. -/
theorem Command.run_keeps {I : Core A → Prop} (hG : TakesNew G)
    (hstep : ∀ c c', Step G c c' → I c → I c') {w : World A} {command : Command}
    (htakes : command.Takes G w.ledger)
    (hcut : ∀ m, Requested m (command.run H w).2.core → I m → I (command.run H w).2.core)
    (hw : I w.core) : I (command.run H w).2.core := by
  have h := command.run_walks (H := H) hG w htakes
  revert h hcut
  rcases command.run H w with ⟨e | o, w'⟩
  · rintro hcut ⟨m, hm, rfl | hr⟩
    · exact Stable.path hstep hm hw
    · exact hcut m hr (Stable.path hstep hm hw)
  · intro _ h
    exact Stable.path hstep h.1 hw

theorem run_invariant {I : Core A → Prop} {P : World A → Command → Prop} (hG : TakesNew G)
    (htakes : ∀ w command, P w command → command.Takes G w.ledger)
    (hstep : ∀ c c', Step G c c' → I c → I c')
    (hcut : ∀ w command m, P w command → Requested m (command.run H w).2.core → I m →
      I (command.run H w).2.core) {w : World A} {commands : List Command}
    (h : everyCommand H P w commands) (hw : I w.core) :
    I (commands.foldl (fun w c => (c.run H w).2) w).core := by
  induction commands generalizing w with
  | nil => exact hw
  | cons command rest ih =>
      refine ih h.2 ?_
      exact Command.run_keeps hG hstep (htakes w command h.1) (fun m => hcut w command m h.1) hw

/-! ## What an append brings -/

namespace Ledger

/-- A held order that an ordinary append changed: by a fill, or to the state the event sets. -/
theorem state_of_append {l l' : Ledger A} {e : EventFields} (h : l.append e = .ok l')
    (hb : bringsNone e.payload = true) {a id : String} {o : Order} (ho : l'.held a id = some o) :
    (∃ p, l.held a id = some p ∧ p.state = o.state) ∨
      a = e.account ∧ (setsState e.kind e.payload = some (id, o.state) ∨
        ∃ ev ∈ l'.events, ∃ f, ev.payload = .fill f ∧ f.orderId = id ∧ ev.account = a) := by
  rcases append_change h a id with hsame | ⟨ha, ev, hacc, hkind, hpay, hl, hc⟩
  · exact Or.inl ⟨o, hsame ▸ ho, rfl⟩
  · rw [ho] at hc
    generalize l.held a id = x at hc
    cases hc with
    | kept => exact Or.inl ⟨o, rfl, rfl⟩
    | created _ _ hmem =>
        rw [hpay] at hmem
        cases hp : e.payload <;> simp [hp, Obj.createdOrders] at hmem
        rw [hp] at hb
        cases hb
    | submitted _ _ _ hp =>
        rw [← hpay, hp] at hb
        cases hb
    | updated p u hp hid =>
        refine Or.inr ⟨ha, Or.inl ?_⟩
        rw [← hpay, hp, ← hid]
        rfl
    | moved p c target hp hid ht =>
        refine Or.inr ⟨ha, Or.inl ?_⟩
        rw [← hpay, hp, ← hkind, ← hid, setsState, ht]
        rfl
    | filled p f s hp hid =>
        refine Or.inr ⟨ha, Or.inr ⟨ev, ?_, f, hp, hid, hacc.trans ha.symm⟩⟩
        rw [hl]
        exact List.mem_append_right _ List.mem_cons_self

end Ledger

/-! ## An order is sent at most once -/

/-- The call submits an order under this id. -/
def Call.submits (call : Call A) (id : String) : Bool :=
  match call.act with
  | .submit _ i => i = id
  | _ => false

/-- No id is held in two accounts, whatever was sent has left `NEW`, and was sent once. -/
structure SentOnce (c : Core A) : Prop where
  separate : ∀ a b id o p, c.ledger.held a id = some o → c.ledger.held b id = some p → a = b
  left : ∀ call ∈ c.trace, ∀ a id, call.act = .submit a id → call.ledger.LeftNew a id
  once : ∀ id, (c.trace.filter (·.submits id)).length ≤ 1

/-- The account holds none of the ids that another account holds. -/
def Apart (l : Ledger A) (account : String) (orders : List Order) : Prop :=
  ∀ o ∈ orders, ∀ b p, l.held b o.orderId = some p → b = account

theorem Apart.takesNew : TakesNew (Apart (A := A)) := by
  intro l o hnone _ o' ho' b p hp
  rw [List.mem_singleton.mp ho'] at hp
  obtain ⟨x, hx⟩ := Ledger.known_of_held ⟨p, hp⟩
  rw [hnone] at hx
  cases hx

theorem SentOnce.append {c c' : Core A} {e : EventFields} (h : SentOnce c) (happ : c.append e = .ok c')
    (hap : bringsNone e.payload = true ∨
      ∃ x, e.payload = .ordersCreated x ∧ Apart c.ledger e.account x.orders) : SentOnce c' := by
  obtain ⟨hl, ht⟩ := Core.append_fields happ
  refine ⟨fun a b id o p ho hp => ?_, fun call hcall => h.left call (ht ▸ hcall), fun id => ?_⟩
  · have hnew : ∀ a b p, c.ledger.held b id = some p → a = e.account →
        bringsNone e.payload = false →
        (∀ x, e.payload = .ordersCreated x → ∃ o ∈ x.orders, o.orderId = id) → b = a := by
      intro a b p hp ha hb hx
      rcases hap with hap | ⟨x, hpay, hap⟩
      · rw [hap] at hb
        cases hb
      · obtain ⟨q, hq, rfl⟩ := hx x hpay
        exact (hap q hq b p hp).trans ha.symm
    rcases Ledger.held_of_append hl ho with ⟨o', ho'⟩ | ⟨ha, hba, hxa⟩
    · rcases Ledger.held_of_append hl hp with ⟨p', hp'⟩ | ⟨hb, hbb, hxb⟩
      · exact h.separate a b id o' p' ho' hp'
      · exact hnew b a o' ho' hb hbb fun x hx => ⟨p, hxb x hx⟩
    · rcases Ledger.held_of_append hl hp with ⟨p', hp'⟩ | ⟨hb, -, -⟩
      · exact (hnew a b p' hp' ha hba fun x hx => ⟨o, hxa x hx⟩).symm
      · exact ha.trans hb.symm
  · rw [ht]
    exact h.once id

theorem SentOnce.note {c : Core A} {act : Act} (h : SentOnce c) (hact : c.Permitted act) :
    SentOnce (c.note act) := by
  refine ⟨h.separate, fun call hcall a id hcact => ?_, fun id => ?_⟩
  · rcases List.mem_append.mp hcall with hcall | hcall
    · exact h.left call hcall a id hcact
    · rw [List.mem_singleton] at hcall
      subst hcall
      cases hcact
      obtain ⟨o, ho, hs⟩ := hact.1
      exact ⟨o, ho, by rw [hs]; decide⟩
  · change (List.filter (·.submits id) (c.trace ++ [(⟨act, c.ledger⟩ : Call A)])).length ≤ 1
    rw [List.filter_append, List.length_append]
    cases act with
    | submit a i =>
        by_cases hi : i = id
        · -- whatever was sent under this id before is in the same account, and left `NEW` too early
          subst hi
          obtain ⟨⟨o, ho, -⟩, ⟨l, hnew, hbefore⟩, -⟩ := hact
          have hnone : c.trace.filter (·.submits i) = [] := by
            refine List.filter_eq_nil_iff.mpr fun call hcall hsub => ?_
            unfold Call.submits at hsub
            split at hsub
            · rename_i b i' hcact
              cases of_decide_eq_true hsub
              have hleft := h.left call hcall b i hcact
              obtain ⟨p, hp⟩ := Ledger.held_mono (hleft.imp fun _ h => h.1) (c.extends_trace call hcall)
              cases h.separate a b i o p ho hp
              exact (hleft.mono (hbefore call hcall)).not_new hnew
            · cases hsub
          rw [hnone, List.length_nil, Nat.zero_add]
          exact List.length_filter_le _ _
        · simpa [Call.submits, hi] using h.once id
    | _ => simpa [Call.submits] using h.once id

theorem SentOnce.step {c c' : Core A} (hs : Step Apart c c') (h : SentOnce c) : SentOnce c' := by
  cases hs with
  | event ho happ => exact h.append happ (Or.inl ho.1)
  | create hp hG happ => exact h.append happ (Or.inr ⟨_, hp, hG⟩)
  | mark hr hm _ _ _ h₁ h₂ =>
      exact (h.append h₁ (Or.inl (by rw [hr]; rfl))).append h₂ (Or.inl (by rw [hm]; rfl))
  | note hact => exact h.note hact

theorem bringsNone_of_requests {p : Obj} (h : requestsSubmission p = true) : bringsNone p = true := by
  cases p <;> first | rfl | cases h

theorem SentOnce.requested {c c' : Core A} (hr : Requested c c') (h : SentOnce c) : SentOnce c' := by
  obtain ⟨e, he, happ⟩ := hr
  exact h.append happ (Or.inl (bringsNone_of_requests he))

/-! ## A triggered exit goes out alone -/

/-- Every order that went out by its trigger was alone then. -/
structure SentAlone (c : Core A) : Prop where
  sentOnce : SentOnce c
  alone : ∀ call ∈ c.trace, ∀ a id, call.act = .submit a id → call.ledger.Exclusive a id

theorem SentAlone.note {c : Core A} {act : Act} (h : SentAlone c) (hact : c.Permitted act) :
    SentAlone (c.note act) := by
  refine ⟨h.sentOnce.note hact, fun call hcall a id hcact => ?_⟩
  rcases List.mem_append.mp hcall with hcall | hcall
  · exact h.alone call hcall a id hcact
  · rw [List.mem_singleton] at hcall
    subst hcall
    cases hcact
    exact hact.2.2 h.sentOnce.separate

theorem SentAlone.append {c c' : Core A} {e : EventFields} (h : SentAlone c)
    (happ : c.append e = .ok c') (hsent : SentOnce c') : SentAlone c' :=
  ⟨hsent, fun call hcall => h.alone call ((Core.append_fields happ).2 ▸ hcall)⟩

theorem SentAlone.step {c c' : Core A} (hs : Step Apart c c') (h : SentAlone c) : SentAlone c' := by
  have hsent := h.sentOnce.step hs
  cases hs with
  | event _ happ => exact h.append happ hsent
  | create _ _ happ => exact h.append happ hsent
  | mark _ _ _ _ _ h₁ h₂ =>
      have htrace := (Core.append_fields h₂).2.trans (Core.append_fields h₁).2
      exact ⟨hsent, fun call hcall => h.alone call (htrace ▸ hcall)⟩
  | note hact => exact h.note hact

theorem SentAlone.requested {c c' : Core A} (hr : Requested c c') (h : SentAlone c) :
    SentAlone c' := by
  have hsent := h.sentOnce.requested hr
  obtain ⟨e, -, happ⟩ := hr
  exact h.append happ hsent

/-! ## What the venue holds is accounted for -/

/-- Every order in a state that speaks of the venue has been received by it. -/
structure Accounted (c : Core A) : Prop where
  held : ∀ a id o, c.ledger.held a id = some o → silent o.state = false → c.Received a id
  replacing : ∀ call ∈ c.trace, ∀ a id s, call.act = .replaceOrder a id →
    call.ledger.HeldIn a id s → silent s = false → c.Received a id

/-- Only `NEW` orders are created. -/
def AllNew (_ : Ledger A) (_ : String) (orders : List Order) : Prop := ∀ o ∈ orders, o.state = .new

theorem AllNew.takesNew : TakesNew (AllNew (A := A)) := by
  intro l o _ hs o' ho'
  rw [List.mem_singleton.mp ho']
  exact hs

theorem Accounted.warranted {c : Core A} (h : Accounted c) {a id : String} {s : OrderState}
    (hw : c.Warranted a id s) (hs : silent s = false) : c.Received a id := by
  rcases hw with hr | ⟨o, ho, rfl⟩ | ⟨call, hcall, hact, hheld⟩
  · exact hr
  · exact h.held a id o ho hs
  · exact h.replacing call hcall a id s hact hheld hs

theorem Accounted.event {c c' : Core A} {e : EventFields} (h : Accounted c)
    (ho : c.Ordinary e.account e.kind e.payload) (happ : c.append e = .ok c') : Accounted c' := by
  obtain ⟨hl, ht⟩ := Core.append_fields happ
  have hmono : ∀ {a id}, c.Received a id → c'.Received a id := fun hr =>
    hr.mono (Core.append_extends happ) (by rw [ht])
  refine ⟨fun a id o hheld hs => ?_, fun call hcall a id s hact hheld hs => ?_⟩
  · rcases Ledger.state_of_append hl ho.1 hheld with ⟨p, hp, hps⟩ | ⟨rfl, hset | hfill⟩
    · exact hmono (h.held a id p hp (hps ▸ hs))
    · exact hmono (h.warranted (ho.2 id o.state hset hs) hs)
    · exact Or.inr hfill
  · exact hmono (h.replacing call (ht ▸ hcall) a id s hact hheld hs)

theorem Accounted.create {c c' : Core A} {e : EventFields} {x : OrdersCreated} (h : Accounted c)
    (hp : e.payload = .ordersCreated x) (hnew : ∀ o ∈ x.orders, o.state = .new)
    (happ : c.append e = .ok c') : Accounted c' := by
  obtain ⟨hl, ht⟩ := Core.append_fields happ
  have hmono : ∀ {a id}, c.Received a id → c'.Received a id := fun hr =>
    hr.mono (Core.append_extends happ) (by rw [ht])
  refine ⟨fun a id o hheld hs => ?_, fun call hcall a id s hact hheld hs => ?_⟩
  · rcases Ledger.append_change hl a id with hsame | ⟨-, ev, -, -, hpay, -, hc⟩
    · exact hmono (h.held a id o (hsame ▸ hheld) hs)
    · rw [hheld] at hc
      rw [hp] at hpay
      generalize hx : c.ledger.held a id = before at hc
      cases hc with
      | kept => exact hmono (h.held a id o hx hs)
      | created _ _ hmem =>
          rw [hpay] at hmem
          rw [hnew o hmem] at hs
          cases hs
      | submitted _ _ _ hp => rw [hpay] at hp; cases hp
      | updated _ _ hp => rw [hpay] at hp; cases hp
      | moved _ _ _ hp => rw [hpay] at hp; cases hp
      | filled _ _ _ hp => rw [hpay] at hp; cases hp
  · exact hmono (h.replacing call (ht ▸ hcall) a id s hact hheld hs)

/-- The request alone would put an order the venue has not seen in `SUBMITTED`; with its marker the
order is in doubt. -/
theorem Accounted.mark {c c₁ c₂ : Core A} {request marker : EventFields} {u : OrderUpdated}
    {change : OrderStateChange} (h : Accounted c) (hr : request.payload = .orderUpdated u)
    (hm : marker.payload = .stateChange change) (hk : marker.kind = .orderPending)
    (hid : change.orderId = u.order.orderId) (ha : marker.account = request.account)
    (h₁ : c.append request = .ok c₁) (h₂ : c₁.append marker = .ok c₂) : Accounted c₂ := by
  obtain ⟨hl₁, ht₁⟩ := Core.append_fields h₁
  obtain ⟨hl₂, ht₂⟩ := Core.append_fields h₂
  have hmono : ∀ {a id}, c.Received a id → c₂.Received a id := fun hrec =>
    hrec.mono ((Core.append_extends h₁).trans (Core.append_extends h₂)) (by rw [ht₂, ht₁])
  refine ⟨fun a id o hheld hs => ?_, fun call hcall a id s hact hheld hs => ?_⟩
  · rcases Ledger.state_of_append hl₂ (by rw [hm]; rfl) hheld with ⟨p, hp, hps⟩ | ⟨rfl, hset | hfill⟩
    · rcases Ledger.state_of_append hl₁ (by rw [hr]; rfl) hp with ⟨q, hq, hqs⟩ | ⟨rfl, hset | hfill⟩
      · exact hmono (h.held a id q hq (by rw [hqs, hps]; exact hs))
      · -- the order of the request: the marker has moved it on
        rw [hr] at hset
        simp only [setsState, Option.some.injEq, Prod.mk.injEq] at hset
        obtain ⟨o', ho', hpend⟩ := Ledger.append_moved hl₂ hm (by rw [hk]; rfl)
        rw [ha, hid, hset.1, hheld] at ho'
        cases ho'
        rw [hpend] at hs
        cases hs
      · obtain ⟨ev, hev, hf⟩ := hfill
        exact Or.inr ⟨ev, (Core.append_extends h₂).subset hev, hf⟩
    · rw [hm, hk] at hset
      simp only [setsState, stateTarget, Option.map_some, Option.some.injEq, Prod.mk.injEq] at hset
      rw [← hset.2] at hs
      cases hs
    · exact Or.inr hfill
  · exact hmono (h.replacing call (by rw [ht₂, ht₁] at hcall; exact hcall) a id s hact hheld hs)

theorem Accounted.note {c : Core A} (h : Accounted c) (act : Act) : Accounted (c.note act) := by
  have hmono : ∀ {a id}, c.Received a id → (c.note act).Received a id := fun hr =>
    hr.mono List.prefix_rfl (List.prefix_append _ _)
  refine ⟨fun a id o hheld hs => hmono (h.held a id o hheld hs),
    fun call hcall a id s hact hheld hs => ?_⟩
  rcases List.mem_append.mp hcall with hcall | hcall
  · exact hmono (h.replacing call hcall a id s hact hheld hs)
  · rw [List.mem_singleton] at hcall
    subst hcall
    obtain ⟨o, ho, rfl⟩ := hheld
    exact hmono (h.held a id o ho hs)

theorem Accounted.step {c c' : Core A} (hs : Step AllNew c c') (h : Accounted c) : Accounted c' := by
  cases hs with
  | event ho happ => exact h.event ho happ
  | create hp hG happ => exact h.create hp hG happ
  | mark hr hm hk hid ha h₁ h₂ => exact h.mark hr hm hk hid ha h₁ h₂
  | note => exact h.note _

/-! ## The broker is asked about orders in doubt -/

/-- The order a broker call is about is `PENDING_UNKNOWN` in the ledger the call is made on. -/
def Call.inDoubt (call : Call A) : Bool :=
  match call.act with
  | .submit a id | .cancel a id | .replace a id =>
    (call.ledger.held a id).any (·.state = .pendingUnknown)
  | _ => true

/-- A cancel that goes to the venue has no earlier marker under its command id. -/
def Call.unmarked (call : Call A) : Bool :=
  match call.act with
  | .cancelOrder _ _ command => (call.ledger.byCommand (command ++ ":pending")).isNone
  | _ => true

/-- As long as no cancel finds an earlier marker, every broker call is about an order in doubt. -/
def Doubtful (c : Core A) : Prop :=
  (∀ call ∈ c.trace, call.unmarked = true) → ∀ call ∈ c.trace, call.inDoubt = true

theorem Ledger.HeldIn.any {l : Ledger A} {a id : String} {s : OrderState} (h : l.HeldIn a id s) :
    (l.held a id).any (·.state = s) = true := by
  obtain ⟨o, ho, hs⟩ := h
  rw [ho, Option.any_some]
  exact decide_eq_true hs

theorem Core.Permitted.inDoubt {c : Core A} {act : Act} (h : c.Permitted act)
    (hun : ∀ call ∈ c.trace, call.unmarked = true) : Call.inDoubt ⟨act, c.ledger⟩ = true := by
  cases act with
  | submit => exact h.1.any
  | cancel =>
      rcases h with h | ⟨call, hcall, command, hact, hne⟩
      · exact h.any
      · have hnone := hun call hcall
        simp only [Call.unmarked, hact, Option.isNone_iff_eq_none] at hnone
        exact absurd hnone hne
  | replace => exact Ledger.HeldIn.any h
  | _ => rfl

theorem Doubtful.step {c c' : Core A} (hs : Step G c c') (h : Doubtful c) : Doubtful c' := by
  have hsame : c'.trace = c.trace → Doubtful c' := by
    intro ht
    unfold Doubtful
    rw [ht]
    exact h
  cases hs with
  | event _ happ => exact hsame (Core.append_fields happ).2
  | create _ _ happ => exact hsame (Core.append_fields happ).2
  | mark _ _ _ _ _ h₁ h₂ => exact hsame ((Core.append_fields h₂).2.trans (Core.append_fields h₁).2)
  | note hact =>
      intro hun call hcall
      have hold : ∀ call ∈ c.trace, call.unmarked = true := fun call hcall =>
        hun call (List.mem_append_left _ hcall)
      rcases List.mem_append.mp hcall with hcall | hcall
      · exact h hold call hcall
      · rw [List.mem_singleton.mp hcall]
        exact hact.inDoubt hold

theorem Doubtful.requested {c c' : Core A} (hr : Requested c c') (h : Doubtful c) : Doubtful c' := by
  obtain ⟨e, -, happ⟩ := hr
  unfold Doubtful
  rw [(Core.append_fields happ).2]
  exact h

end TradeEngine.Oms
