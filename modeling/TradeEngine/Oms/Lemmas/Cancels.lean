import TradeEngine.Oms.Lemmas.Submission

/-!
# Cancels

A cancel writes to the order it is given. The exits of a group are cancelled one by one, and each has
ended when the next one's turn comes; a trigger goes on only when all have.
-/

namespace TradeEngine.Oms

open Lib Relation

section Cancels

variable {A : Arith} {P : String → Prop} {K : Core A → Prop} {H : Host} {α : Type}

/-- The order an account holds, where the manager finds it. -/
theorem Current.of_held {c : Core A} {a id : String} {o : Order} (hat : c.ledger.At a id)
    (ho : c.ledger.held a id = some o) : Current o c := by
  obtain ⟨x, hx, rfl⟩ := hat
  rw [(Ledger.context_held hx).1] at ho
  cases ho
  exact .of_context hx

theorem Current.moved {o : Order} {c c' : Core A} {command : String} {kind : EventKind}
    {reason venue : Option String} {target : OrderState} (h : Current o c)
    (happ : Appended c o.accountId kind (.stateChange ⟨o.orderId, reason, venue⟩) command c')
    (ht : stateTarget kind = some target) : Current { o with state := target } c' :=
  .of_held (happ.at h.at) (happ.moves ht h.held)

theorem Current.updated {o p : Order} {c c' : Core A} {command reason : String}
    {venue : Option String} (h : Current o c)
    (happ : Appended c o.accountId .orderUpdated (.orderUpdated ⟨p, reason, venue⟩) command c')
    (hid : p.orderId = o.orderId) : Current p c' :=
  .of_held (happ.at h.at) (hid ▸ happ.updates)

theorem Current.read {o p : Order} {c : Core A} (h : Current o c)
    (hp : c.ledger.getOrder o.orderId = .ok p) : p = o := by
  have hheld := h.at.getOrder hp
  rw [h.held] at hheld
  cases hheld
  rfl

theorem stable_current {o : Order} (hid : ¬ P o.orderId) :
    Stable (Write P) fun c : Core A => Current o c :=
  fun _ _ hw h => .of_held (hw.at h.at) ((hw.held_of_not hid _).trans h.held)

theorem markPending_writes {order : Order} {reason command : String} (hP : P order.orderId) :
    Touch A P (markPending H order reason command) := by
  refine getOrder_current.bind fun current => Walks.ite (fun _ => Walks.pure fun _ _ => trivial) fun _ => ?_
  refine (Walks.still still_read).bind fun ctx => Walks.assume (fun c hc => hc.2.2) fun hid => ?_
  refine Walks.bind (Q := fun _ _ => True) ?_ fun _ => Walks.pure fun _ _ => trivial
  exact (append_touch rfl fun _ _ hs => by rw [setsState_change hs, hid]; exact hP).over

/-- The order as it is now, under the id it was asked for. -/
def ReadBack (id : String) (o : Order) (c : Core A) : Prop := Current o c ∧ o.orderId = id

theorem getOrder_readBack {id : String} :
    Writes A P K (getOrder H id) (ReadBack id) := getOrder_current.post fun _ _ h => h.2

theorem recordCancelAck_writes {current : Order} {command reason : String} {oco : Bool}
    {ack : VenueAck} (hP : P current.orderId) :
    Writes A P K (recordCancelAck H current command reason oco ack) (ReadBack current.orderId) := by
  have happ : ∀ {kind : EventKind} {x : OrderStateChange} {id : String}, x.orderId = current.orderId →
      Writes A P K (append H current.accountId kind (.stateChange x) id) fun _ _ => True := fun hx =>
    (append_touch rfl fun _ _ hs => by rw [setsState_change hs, hx]; exact hP).over
  refine (Walks.still still_lift).bind fun plan => ?_
  split
  · exact (happ rfl).bind fun _ => getOrder_readBack
  · exact Walks.bind (Q := fun _ _ => True) (happ rfl) fun _ => Walks.fail
  · refine (happ rfl).bind fun _ => ?_
    split
    · exact Walks.fail
    · exact getOrder_readBack

theorem cancelAtVenue_writes {ctx : Context} {command reason : String} {oco : Bool}
    (hP : P ctx.order.orderId) :
    Writes A P K (cancelAtVenue H ctx command reason oco) (ReadBack ctx.order.orderId) := by
  refine (Touch.of_still still_lift).over.bind fun venueId => ?_
  refine (note_writes fun _ _ => trivial).bind fun _ => (markPending_writes hP).bind fun _ => ?_
  refine (broker_writes fun _ _ => trivial).bind fun answer => ?_
  cases answer with
  | none => exact Walks.fail
  | some ack => exact recordCancelAck_writes hP

theorem cancelOrder_writes {order : Order} {command reason : String} {oco : Bool}
    (hP : P order.orderId) :
    Writes A P K (cancelOrder H order command reason oco) (ReadBack order.orderId) := by
  refine context_walks.bind fun ctx => (Walks.still still_lift).bind fun mode => ?_
  refine Walks.assume (fun c hc => (Ledger.context_held hc.2).2) fun hid => ?_
  rw [← hid] at hP ⊢
  cases mode with
  | ret => exact Walks.pure fun c hc => ⟨.of_context hc.2, rfl⟩
  | «local» =>
      refine (append_touch rfl fun _ _ hs => ?_).over.bind fun _ => getOrder_readBack
      rw [setsState_change hs]
      exact hP
  | venue => exact cancelAtVenue_writes hP

/-- The account that the manager finds the order in holds it, and it has ended. -/
def EndedNow (id : String) (c : Core A) : Prop := ∃ o, ReadBack id o c ∧ terminal o.state = true

theorem cancelExit_writes {command : String} {sibling : Order} (hP : P sibling.orderId) :
    Writes A P K (cancelExit H command sibling) fun _ => EndedNow sibling.orderId := by
  refine getOrder_current.bind fun current => Walks.ite (fun ht => ?_) fun _ => ?_
  · exact Walks.pure fun c hc => ⟨current, hc.2, ht⟩
  · refine Walks.assume (fun c hc => hc.2.2) fun hid => ?_
    rw [← hid] at hP ⊢
    refine (cancelOrder_writes hP).bind fun cancelled => ?_
    refine Walks.lift.post fun _ c hc => ⟨cancelled, hc.1, ?_⟩
    have hoco := hc.2
    simpa [ocoCheck] using hoco

theorem terminal_iff {s : OrderState} : terminal s = true ↔ s.Ended := by
  cases s <;> simp [terminal, OrderState.Ended]

theorem stable_ended {id : String} : Stable (Write P) (EndedNow (A := A) id) := by
  rintro c c' hw ⟨o, ⟨hcur, rfl⟩, ht⟩
  rw [terminal_iff] at ht
  obtain ⟨es, -, hrun⟩ := Ledger.run_of_extends hw.extends o.accountId
  obtain ⟨p, hp, hs, -⟩ := run_ended hrun hcur.held ht
  have hp' : Current p c' := .of_held (hw.at hcur.at) hp
  exact ⟨p, ⟨hp', (Ledger.held_ids hp).1⟩, terminal_iff.mpr (hs ▸ ht)⟩

theorem cancelExits_ends {exits : List Order} {command : String} (hP : ∀ x ∈ exits, P x.orderId) :
    Writes A P K (cancelExits H exits command) fun _ c => ∀ x ∈ exits, EndedNow x.orderId c := by
  induction exits generalizing K with
  | nil => exact Walks.pure fun _ _ x hx => by cases hx
  | cons x exits ih =>
      refine (cancelExit_writes (hP x List.mem_cons_self)).bind fun _ => ?_
      have hrest : Writes A P (fun _ => True) (cancelExits H exits command)
          fun _ c => ∀ y ∈ exits, EndedNow y.orderId c :=
        ih fun y hy => hP y (List.mem_cons_of_mem _ hy)
      have hkeep : Stable (Write P) (EndedNow (A := A) x.orderId) := stable_ended
      refine (hrest.keep hkeep).weaken (fun _ hc => ⟨trivial, hc⟩) ?_
      intro _ c hc y hy
      rcases List.mem_cons.mp hy with rfl | hy
      · exact hc.2
      · exact hc.1 y hy

/-- When no account holds an id of another, a group whose ids have all ended has ended. -/
theorem Ledger.Separated.alone {order : Order} {c : Core A} (h : c.ledger.Separated)
    (hended : ∀ id ∈ (siblings order (c.ledger.state order.accountId).orders.values).map (·.orderId),
      EndedNow id c) : c.ledger.Alone order := by
  intro p hp
  obtain ⟨o, ⟨hcur, hid⟩, hterm⟩ := hended p.orderId (List.mem_map_of_mem hp)
  obtain ⟨e, he, rfl⟩ := List.mem_map.mp (List.mem_filter.mp hp).1
  have hget : c.ledger.held order.accountId e.1 = some e.2.2 := OMap.get_of_mem he
  have hkey := (Ledger.held_ids hget).1
  have hheld := hcur.held
  rw [hid, hkey] at hheld
  rw [h _ _ _ _ _ hget hheld, hheld] at hget
  cases hget
  exact hterm

/-- A trigger's siblings are cancelled: the order is as it was, and alone. -/
theorem cancelEmulatedSiblings_writes {order : Order} {command : String} :
    Writes A (· ≠ order.orderId) (Current order) (cancelEmulatedSiblings H order command)
      fun _ c => Current order c ∧ (c.ledger.Separated → c.ledger.Alone order) := by
  refine accountState_walks.bind fun st => ?_
  have hne : ∀ x ∈ siblings order st.orders.values, x.orderId ≠ order.orderId := by
    intro x hx
    have hsib := (List.mem_filter.mp hx).2
    simp only [Bool.and_eq_true, decide_eq_true_eq] at hsib
    exact hsib.1.1.1.1
  have hids : Stable (Write (· ≠ order.orderId)) fun c : Core A =>
      (siblings order (c.ledger.state order.accountId).orders.values).map (·.orderId) =
        (siblings order st.orders.values).map (·.orderId) :=
    fun _ _ hw hc => (hw.sibling_ids _ _).trans hc
  have hcancel : Writes A (· ≠ order.orderId) (fun _ => True)
      (cancelExits H (siblings order st.orders.values) (command ++ ":" ++ order.orderId ++ ":trigger"))
      fun _ c => ∀ x ∈ siblings order st.orders.values, EndedNow x.orderId c := cancelExits_ends hne
  refine ((hcancel.keep (stable_current (o := order) (by simp))).keep hids).weaken (fun c hc => ⟨⟨trivial, hc.1⟩, by rw [hc.2]⟩) ?_
  rintro _ c ⟨⟨hended, hcur⟩, hsame⟩
  refine ⟨hcur, fun hsep => hsep.alone ?_⟩
  rw [hsame]
  intro id hid
  obtain ⟨x, hx, rfl⟩ := List.mem_map.mp hid
  exact hended x hx

end Cancels

end TradeEngine.Oms
