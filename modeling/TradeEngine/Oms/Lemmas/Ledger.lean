import TradeEngine.Ledger.Lemmas.Changes
import TradeEngine.Oms.Host

/-!
# Orders in a growing ledger

An append changes one account's state and nothing that is already committed. What an order has left
behind, its `NEW` state above all, it does not return to.
-/

namespace TradeEngine.Oms

open Lib

variable {A : Arith}

namespace Ledger

/-- The order an account holds under an id. -/
def held (l : Ledger A) (account orderId : String) : Option Order :=
  (l.state account).orders.get orderId

/-- The account holds the order in this state. -/
def HeldIn (l : Ledger A) (account orderId : String) (s : OrderState) : Prop :=
  ∃ o, l.held account orderId = some o ∧ o.state = s

/-- The account holds the order, and it is past `NEW`. -/
def LeftNew (l : Ledger A) (account orderId : String) : Prop :=
  ∃ o, l.held account orderId = some o ∧ o.state ≠ .new

theorem LeftNew.not_new {l : Ledger A} {a id : String} (h : l.LeftNew a id) :
    ¬ l.HeldIn a id .new := by
  rintro ⟨o, ho, hs⟩
  obtain ⟨p, hp, hne⟩ := h
  rw [ho] at hp
  cases hp
  exact hne hs

/-! ## One append -/

/-- What an append stores, and what it does to its account. -/
theorem append_state {l l' : Ledger A} {e : EventFields} (h : l.append e = .ok l') :
    ∃ ev : Event, ev.account = e.account ∧ ev.kind = e.kind ∧ ev.payload = e.payload ∧
      ev.commandId = e.commandId ∧ l'.events = l.events ++ [ev] ∧
      applyEvent A (l.state e.account) ev = .ok (l'.state e.account) ∧
      l'.states = l.states.put e.account (l'.state e.account) := by
  obtain ⟨ev, hev, hl, hs⟩ := append_ok h
  have hf := makeEvent_fields hev
  have hacc : ev.account = e.account := by rw [hf]
  simp only [foldStep, bind_eq_ok, pure_eq_ok] at hs
  obtain ⟨st, hst, hs⟩ := hs
  rw [hacc] at hst hs
  have hstate : l'.state e.account = st := by simp [state, ← hs]
  refine ⟨ev, hacc, by rw [hf], by rw [hf], by rw [hf], hl, ?_, ?_⟩
  · rw [hstate]
    exact hst
  · rw [hstate]
    exact hs.symm

theorem append_state_ne {l l' : Ledger A} {e : EventFields} (h : l.append e = .ok l') {a : String}
    (ha : a ≠ e.account) : l'.state a = l.state a := by
  obtain ⟨-, -, -, -, -, -, -, hs⟩ := append_state h
  rw [state, hs, OMap.get_put_ne _ _ ha, state]

/-- How an append changes one order of one account. -/
theorem append_change {l l' : Ledger A} {e : EventFields} (h : l.append e = .ok l')
    (a id : String) : l'.held a id = l.held a id ∨
      a = e.account ∧ ∃ ev : Event, ev.account = e.account ∧ ev.kind = e.kind ∧
        ev.payload = e.payload ∧ l'.events = l.events ++ [ev] ∧
        OrderChange ev id (l.held a id) (l'.held a id) := by
  by_cases ha : a = e.account
  · subst ha
    obtain ⟨ev, hacc, hkind, hpay, -, hl, hstep, -⟩ := append_state h
    exact Or.inr ⟨rfl, ev, hacc, hkind, hpay, hl, applyEvent_change hstep id⟩
  · refine Or.inl ?_
    rw [held, append_state_ne h ha, held]

theorem append_updated {l l' : Ledger A} {e : EventFields} {u : OrderUpdated}
    (h : l.append e = .ok l') (hp : e.payload = .orderUpdated u) :
    l'.held e.account u.order.orderId = some u.order := by
  obtain ⟨ev, -, -, hpay, -, -, hstep, -⟩ := append_state h
  exact applyEvent_updated (hpay.trans hp) hstep

theorem append_moved {l l' : Ledger A} {e : EventFields} {c : OrderStateChange}
    {target : OrderState} (h : l.append e = .ok l') (hp : e.payload = .stateChange c)
    (ht : stateTarget e.kind = some target) : l'.HeldIn e.account c.orderId target := by
  obtain ⟨ev, -, hkind, hpay, -, -, hstep, -⟩ := append_state h
  exact applyEvent_moved (hpay.trans hp) (hkind ▸ ht) hstep

/-- An event that sets no order's state leaves every order alone. -/
theorem append_kept {l l' : Ledger A} {e : EventFields} {x : EmulatedOrderState}
    (h : l.append e = .ok l') (hp : e.payload = .emulated x) (a id : String) :
    l'.held a id = l.held a id := by
  rcases append_change h a id with h | ⟨-, ev, -, -, hpay, -, hc⟩
  · exact h
  · rw [hp] at hpay
    generalize l'.held a id = y at hc
    generalize l.held a id = x at hc
    cases hc with
    | kept => rfl
    | created _ _ ho => simp [hpay, Obj.createdOrders] at ho
    | submitted _ _ _ hp => simp [hpay] at hp
    | updated _ _ hp => simp [hpay] at hp
    | moved _ _ _ hp => simp [hpay] at hp
    | filled _ _ _ hp => simp [hpay] at hp

/-! ## Extensions -/

/-- The events of an extension are a run of every account. -/
theorem run_of_extends {l l' : Ledger A} (h : l.events <+: l'.events) (a : String) :
    ∃ es : List Event, (∀ e ∈ es, e.account = a) ∧
      es.foldlM (applyEvent A) (l.state a) = .ok (l'.state a) := by
  obtain ⟨rest, hrest⟩ := h
  have hf := l'.folded
  rw [← hrest, List.foldlM_append, l.folded] at hf
  refine ⟨rest.filter (·.account = a), fun e he => ?_, foldSteps_get hf a⟩
  exact of_decide_eq_true (List.mem_filter.mp he).2

theorem LeftNew.mono {l l' : Ledger A} {a id : String} (h : l.LeftNew a id)
    (hl : l.events <+: l'.events) : l'.LeftNew a id := by
  obtain ⟨es, -, hrun⟩ := run_of_extends hl a
  exact run_leaves_new hrun h

theorem held_mono {l l' : Ledger A} {a id : String} (h : ∃ o, l.held a id = some o)
    (hl : l.events <+: l'.events) : ∃ o, l'.held a id = some o := by
  obtain ⟨es, -, hrun⟩ := run_of_extends hl a
  exact run_persists hrun h

/-- An account holds its own orders, each under its own id. -/
theorem held_ids {l : Ledger A} {a id : String} {o : Order} (h : l.held a id = some o) :
    o.orderId = id ∧ o.accountId = a := by
  obtain ⟨es, hes, hrun⟩ := run_of_extends (l := (empty : Ledger A)) (List.nil_prefix) a
  exact run_order_ids hrun hes (fun _ _ hx => by cases hx) id o h

/-- The ledger as it stood right after one of its events. -/
theorem exists_after {l : Ledger A} {ev : Event} (h : ev ∈ l.events) :
    ∃ (l' : Ledger A) (st : AccountState), l'.events <+: l.events ∧
      applyEvent A st ev = .ok (l'.state ev.account) := by
  obtain ⟨es, rest, hes⟩ := List.append_of_mem h
  have hf := l.folded
  rw [hes, show es ++ ev :: rest = (es ++ [ev]) ++ rest by simp, List.foldlM_append] at hf
  obtain ⟨states, hf, -⟩ := bind_eq_ok.mp hf
  refine ⟨⟨es ++ [ev], states, hf⟩, ?_⟩
  rw [List.foldlM_append] at hf
  obtain ⟨s, -, hf⟩ := bind_eq_ok.mp hf
  simp only [List.foldlM_cons, List.foldlM_nil, foldStep, bind_eq_ok, pure_eq_ok] at hf
  obtain ⟨_, ⟨st, hst, rfl⟩, rfl⟩ := hf
  refine ⟨_, ⟨rest, by simp [hes]⟩, hst.trans ?_⟩
  simp [state]

/-- A committed state event that leaves `NEW` keeps its order out of it. -/
theorem leftNew_of_moved {l : Ledger A} {ev : Event} {c : OrderStateChange} {target : OrderState}
    (h : ev ∈ l.events) (hp : ev.payload = .stateChange c)
    (ht : stateTarget ev.kind = some target) (hne : target ≠ .new) :
    l.LeftNew ev.account c.orderId := by
  obtain ⟨l', st, hl, hstep⟩ := exists_after h
  obtain ⟨o, ho, hs⟩ := applyEvent_moved hp ht hstep
  exact LeftNew.mono (l := l') ⟨o, ho, hs ▸ hne⟩ hl

theorem leftNew_of_updated {l : Ledger A} {ev : Event} {u : OrderUpdated} (h : ev ∈ l.events)
    (hp : ev.payload = .orderUpdated u) (hne : u.order.state ≠ .new) :
    l.LeftNew ev.account u.order.orderId := by
  obtain ⟨l', st, hl, hstep⟩ := exists_after h
  exact LeftNew.mono (l := l') ⟨u.order, applyEvent_updated hp hstep, hne⟩ hl

/-! ## The context of an order -/

theorem contextIn_some {st : AccountState} {id : String} {c : Context}
    (h : contextIn st id = some c) : st.orders.get id = some c.order ∧
      c.emulation = st.emulatedOrders.get id := by
  simp only [contextIn, Option.map_eq_some_iff] at h
  obtain ⟨o, ho, rfl⟩ := h
  exact ⟨ho, rfl⟩

theorem state_of_get {l : Ledger A} {a : String} {st : AccountState} (h : l.states.get a = some st) :
    l.state a = st := by
  rw [state, h, Option.getD_some]

theorem context_held {l : Ledger A} {id : String} {c : Context} (h : l.context? id = some c) :
    l.held c.order.accountId id = some c.order ∧ c.order.orderId = id := by
  obtain ⟨st, hst, hc⟩ := List.exists_of_findSome?_eq_some h
  obtain ⟨e, he, rfl⟩ := List.mem_map.mp hst
  have hheld : l.held e.1 id = some c.order := by
    rw [held, state_of_get (OMap.get_of_mem he)]
    exact (contextIn_some hc).1
  obtain ⟨hid, hacc⟩ := held_ids hheld
  exact ⟨hacc ▸ hheld, hid⟩

theorem context_filled {l : Ledger A} {id : String} {c : Context} (h : l.context? id = some c) :
    c.filled = (l.state c.order.accountId).filled id := by
  obtain ⟨st, hst, hc⟩ := List.exists_of_findSome?_eq_some h
  obtain ⟨e, he, rfl⟩ := List.mem_map.mp hst
  have hstate : l.state e.1 = e.2.2 := state_of_get (OMap.get_of_mem he)
  have hheld : l.held e.1 id = some c.order := by
    rw [held, hstate]
    exact (contextIn_some hc).1
  rw [(held_ids hheld).2, hstate]
  simp only [contextIn, Option.map_eq_some_iff] at hc
  obtain ⟨o, -, rfl⟩ := hc
  rfl

theorem context_some {l : Ledger A} {id : String} {c : Context} (h : l.context id = .ok c) :
    l.context? id = some c := by
  unfold context at h
  split at h
  · cases h
    assumption
  · simp at h

theorem getOrder_some {l : Ledger A} {id : String} {o : Order} (h : l.getOrder id = .ok o) :
    ∃ c, l.context? id = some c ∧ c.order = o := by
  simp only [getOrder, bind_eq_ok, pure_eq_ok] at h
  obtain ⟨c, hc, rfl⟩ := h
  exact ⟨c, context_some hc, rfl⟩

/-- The order is held where the manager looks for it: the first account that has the id. -/
def At (l : Ledger A) (account orderId : String) : Prop :=
  ∃ c, l.context? orderId = some c ∧ c.order.accountId = account

theorem At.unique {l : Ledger A} {a b id : String} (ha : l.At a id) (hb : l.At b id) :
    a = b := by
  obtain ⟨x, hx, rfl⟩ := ha
  obtain ⟨y, hy, rfl⟩ := hb
  rw [hx] at hy
  cases hy
  rfl

theorem At.getOrder {l : Ledger A} {a id : String} {o : Order} (h : l.At a id)
    (ho : l.getOrder id = .ok o) : l.held a id = some o := by
  obtain ⟨c, hc, hacc⟩ := h
  obtain ⟨c', hc', rfl⟩ := getOrder_some ho
  rw [hc] at hc'
  cases hc'
  exact hacc ▸ (context_held hc).1

theorem At.context {l : Ledger A} {a id : String} {c : Context} (h : l.At a id)
    (hc : l.context id = .ok c) : l.held a id = some c.order ∧ c.order.accountId = a := by
  obtain ⟨c', hc', hacc⟩ := h
  rw [context_some hc] at hc'
  cases hc'
  exact ⟨hacc ▸ (context_held (context_some hc)).1, hacc⟩

theorem known_of_held {l : Ledger A} {a id : String} (h : ∃ o, l.held a id = some o) :
    ∃ c, l.context? id = some c := by
  obtain ⟨o, ho⟩ := h
  unfold held state at ho
  cases hst : l.states.get a with
  | none =>
      rw [hst] at ho
      cases ho
  | some st =>
      rw [hst, Option.getD_some] at ho
      refine Option.isSome_iff_exists.mp (List.findSome?_isSome_iff.mpr ⟨st, ?_, ?_⟩)
      · exact OMap.mem_values_of_get hst
      · simp [contextIn, ho]

/-- An append in the account where an order is found leaves it found there. -/
theorem At.append {l l' : Ledger A} {a id : String} {e : EventFields} (h : l.At a id)
    (happ : l.append e = .ok l') (ha : e.account = a) : l'.At a id := by
  obtain ⟨c, hc, hacc⟩ := h
  obtain ⟨ev, -, -, -, -, -, hstep, hs⟩ := append_state happ
  rw [ha] at hstep hs
  obtain ⟨pre, x, post, hitems, hx, hpre⟩ := OMap.exists_first hc
  obtain ⟨o, ho⟩ : ∃ o, (l'.state a).orders.get id = some o :=
    held_mono ⟨_, hacc ▸ (context_held hc).1⟩ (append_extends happ)
  have hkey : x.1 = a := by
    have hheld : l.held x.1 id = some c.order := by
      rw [held, state_of_get (OMap.get_of_mem (hitems ▸ List.mem_append_right _ List.mem_cons_self))]
      exact (contextIn_some hx).1
    exact (held_ids hheld).2.symm.trans hacc
  subst hkey
  obtain ⟨c', hc'⟩ : ∃ c', contextIn (l'.state x.1) id = some c' := by simp [contextIn, ho]
  refine ⟨c', ?_, (held_ids ((contextIn_some hc').1 : l'.held x.1 id = _)).2⟩
  rw [context?, hs]
  exact OMap.findSome?_put hitems hpre hc'

end Ledger

end TradeEngine.Oms
