import TradeEngine.Sim.Lemmas.Snapshots

/-!
# Calls on the snapshot venue

A call that is no snapshot makes no fill and forgets no snapshot; an order it finds working it may end,
and nothing else. What has ended stays as it ended.
-/

namespace TradeEngine.Sim.Snapshot

open Lib Lib.Prog

variable {A : Arith} {cal : Calendars} {v v₁ v₂ : Venue} {s : Snap} {id : String} {w w' : Working} {now : Ts}

/-! ## Orders that end -/

/-- An order kept as it is, or ended. -/
def Kept (w w' : Working) : Prop :=
  w' = w ∨ w'.order = w.order ∧ working w.state = true ∧ working w'.state = false

theorem Kept.terms (h : Kept w w') : w'.order = w.order := by
  rcases h with rfl | ⟨h, -⟩
  · rfl
  · exact h

theorem Kept.trans {u : Working} (h : Kept w w') (h' : Kept w' u) : Kept w u := by
  rcases h with rfl | ⟨hterms, hlive, hended⟩
  · exact h'
  · rcases h' with rfl | ⟨-, hlive', -⟩
    · exact Or.inr ⟨hterms, hlive, hended⟩
    · rw [hended] at hlive'
      cases hlive'

theorem Kept.of_ended (h : Kept w w') (hended : working w.state = false) : w' = w := by
  rcases h with rfl | ⟨-, hlive, -⟩
  · rfl
  · rw [hended] at hlive
    cases hlive

/-- A call that is no snapshot. -/
structure Carried (v v' : Venue) : Prop where
  tidy : v'.Tidy
  seen : v'.seen = v.seen
  fills : v'.fills = v.fills
  kept : ∀ id w, v.orders.get id = some w → ∃ w', v'.orders.get id = some w' ∧ Kept w w'

theorem Carried.refl (hv : v.Tidy) : Carried v v := ⟨hv, rfl, rfl, fun _ w hw => ⟨w, hw, Or.inl rfl⟩⟩

theorem Carried.trans (h : Carried v v₁) (h' : Carried v₁ v₂) : Carried v v₂ where
  tidy := h'.tidy
  seen := h'.seen.trans h.seen
  fills := h'.fills.trans h.fills
  kept id w hw := by
    obtain ⟨w', hw', hkept⟩ := h.kept id w hw
    obtain ⟨u, hu, hkept'⟩ := h'.kept id w' hw'
    exact ⟨u, hu, hkept.trans hkept'⟩

theorem Lapsed.carried {done : List String} (h : Lapsed cal v now done v₁) : Carried v v₁ where
  tidy := h.tidy
  seen := by rw [h.rest]
  fills := by rw [h.rest]
  kept id w hw := by
    obtain ⟨w', hw', rfl | hlapses⟩ := h.swept.present id w hw
    · exact ⟨w', hw', Or.inl rfl⟩
    · obtain ⟨hlive, close, -, -, rfl⟩ := hlapses
      exact ⟨_, hw', Or.inr ⟨rfl, hlive, rfl⟩⟩

/-- A new order. -/
theorem Carried.add (hv : v.Tidy) (hnew : v.orders.get id = none) (hid : w.order.id = id) :
    Carried v (v.setOrder id w) where
  tidy := hv.setOrder hid
  seen := rfl
  fills := rfl
  kept id' u hu := by
    refine ⟨u, ?_, Or.inl rfl⟩
    rw [Venue.get_setOrder, if_neg]
    · exact hu
    · rintro rfl
      rw [hnew] at hu
      cases hu

/-- A working order that ends. -/
theorem Carried.stop (hv : v.Tidy) (hget : v.orders.get id = some w) (hlive : working w.state = true)
    (hterms : w'.order = w.order) (hended : working w'.state = false) : Carried v (v.setOrder id w') where
  tidy := hv.setOrder (hterms ▸ hv.ids id w hget)
  seen := rfl
  fills := rfl
  kept id' u hu := by
    rw [Venue.get_setOrder]
    split
    · next heq =>
        subst heq
        rw [hget] at hu
        cases hu
        exact ⟨w', rfl, Or.inr ⟨hterms, hlive, hended⟩⟩
    · exact ⟨u, hu, Or.inl rfl⟩

theorem ack_leaves {status : AckStatus} {msg : Option String} {clock : R Ts} (h : Carried v v₁) :
    Post (fun _ => Carried v) (fun _ => Carried v) (Act.ack id status msg clock v₁) := by
  unfold Act.ack
  rw [post_bind]
  exact Post.lift (fun _ _ => h) fun _ _ => h

theorem Carried.reads {α : Type} {f : Venue → R α} (h : Carried v v₁) :
    Post (fun _ => Carried v) (fun _ => Carried v) (read f v₁) :=
  Post.lift (fun _ _ => h) fun _ _ => h

/-! ## The calls -/

/-- A submission once the due orders are gone. -/
theorem submitted_leaves {o : VOrder} {clock : Clock} (hv : v.Tidy) :
    Post (fun _ => Carried v) (fun _ => Carried v)
      ((do
        read (validate · o)
        match ← gets (·.orders.get o.id) with
        | some existing => do
          lift (refuseIf (existing.order.same o = false) .snapshot
            s!"venue_order_id '{o.id}' was reused with different terms")
          if existing.state = .cancelled ∨ existing.state = .rejected then
            Act.ack o.id .rejected (some s!"Order is {existing.state.value}") (clock 1)
          else Act.ack o.id .accepted none (clock 1)
        | none => do
          let at' ← lift (clock 1)
          modify (·.setOrder o.id ⟨o, .accepted, .zero, at'⟩)
          Act.ack o.id .accepted none (clock 2) : Act Ack) v) := by
  rw [post_bind]
  refine Post.lift (fun _ _ => ?_) fun _ _ => .refl hv
  rw [post_bind]
  apply Post.gets
  cases hold : v.orders.get o.id with
  | some existing =>
      dsimp only
      rw [post_bind]
      refine Post.lift (fun _ _ => ?_) fun _ _ => .refl hv
      split
      · exact ack_leaves (.refl hv)
      · exact ack_leaves (.refl hv)
  | none =>
      dsimp only
      rw [post_bind]
      refine Post.lift (fun t _ => ?_) fun _ _ => .refl hv
      rw [post_bind]
      apply Post.modify
      exact ack_leaves (.add hv hold rfl)

/-- A cancellation once the due orders are gone. -/
theorem cancelled_leaves {clock : Clock} (hv : v.Tidy) :
    Post (fun _ => Carried v) (fun _ => Carried v)
      ((do
        let w ← read (·.require id)
        if w.state = .cancelled then Act.ack id .accepted none (clock 1)
        else if working w.state = false then
          Act.ack id .rejected (some s!"Order is {w.state.value}") (clock 1)
        else do
          modify (·.setOrder id { w with state := .cancelled })
          let at' ← lift (clock 1)
          modify (·.setOrder id { w with state := .cancelled, updatedAt := at' })
          Act.ack id .accepted none (clock 2) : Act Ack) v) := by
  rw [post_bind]
  refine Post.lift (fun w hw => ?_) fun _ _ => .refl hv
  have hget := Venue.require_ok hw
  split
  · exact ack_leaves (.refl hv)
  · split
    · exact ack_leaves (.refl hv)
    · next hlive =>
        have hlive : working w.state = true := by simpa using hlive
        rw [post_bind]
        apply Post.modify
        have hfirst : Carried v (v.setOrder id { w with state := .cancelled }) := .stop hv hget hlive rfl rfl
        rw [post_bind]
        refine Post.lift (fun t _ => ?_) fun _ _ => hfirst
        rw [post_bind]
        apply Post.modify
        apply ack_leaves
        refine ⟨hfirst.tidy.setOrder (hv.ids id w hget), rfl, rfl, ?_⟩
        intro id' u hu
        have hlast : Carried v (v.setOrder id { w with state := .cancelled, updatedAt := t }) :=
          .stop hv hget hlive rfl rfl
        obtain ⟨u', hu', hkept⟩ := hlast.kept id' u hu
        refine ⟨u', ?_, hkept⟩
        rw [Venue.get_setOrder] at hu' ⊢
        split
        · next heq => rwa [if_pos heq] at hu'
        · next hne =>
            rw [if_neg hne] at hu'
            rwa [Venue.get_setOrder, if_neg hne]

/-- The venue between the clock and the call's own work. -/
def Ticked (cal : Calendars) (clock : R Ts) (v v' : Venue) : Prop :=
  ∃ now v₁, clock = .ok now ∧ Lapsed cal v now v.orderIds v₁ ∧ Carried v₁ v'

theorem Ticked.carried {clock : R Ts} (h : Ticked cal clock v v₂) : Carried v v₂ := by
  obtain ⟨now, v₁, -, hlapsed, hcarried⟩ := h
  exact hlapsed.carried.trans hcarried

theorem clocked_leaves {α : Type} {p : Act α} {clock : R Ts} (hv : v.Tidy)
    (hp : ∀ v₁ : Venue, v₁.Tidy → Post (fun _ => Carried v₁) (fun _ => Carried v₁) (p v₁)) :
    Post (fun _ => Ticked cal clock v) (fun _ => Carried v)
      ((do
        Act.expireDue cal clock
        p : Act α) v) := by
  rw [post_bind]
  refine (expireDue_leaves hv clock).weaken (fun _ v₁ h => ?_) fun _ v₁ h => ?_
  · obtain ⟨now, hnow, hlapsed⟩ := h
    exact (hp v₁ hlapsed.tidy).weaken (fun _ _ h => ⟨now, v₁, hnow, hlapsed, h⟩)
      fun _ _ h => hlapsed.carried.trans h
  · rcases h with ⟨-, rfl⟩ | ⟨now, done, -, hlapsed⟩
    · exact .refl hv
    · exact hlapsed.carried

/-- The clock a call lapses orders by, where it makes no fill. -/
def Request.clock? : Request → Option Clock
  | .submit _ clock => some clock
  | .cancel _ clock => some clock
  | .orders _ clock => some clock
  | .fills _ clock => some clock
  | .connect _ => none
  | .restore _ _ _ => none
  | .replace _ _ => none
  | .positions _ => none
  | .processSnapshot _ _ => none

theorem perform_clocked (A : Arith) (cal : Calendars) {r : Request} {clock : Clock} (hv : v.Tidy)
    (hclock : r.clock? = some clock) :
    Post (fun _ => Ticked cal (clock 0) v) (fun _ => Carried v) (perform A cal r v) := by
  cases r with
  | submit o clock =>
      cases hclock
      unfold perform Act.submit
      rw [post_discard, post_bind]
      refine Post.lift (fun _ _ => ?_) fun _ _ => .refl hv
      exact clocked_leaves hv fun _ h => submitted_leaves h
  | cancel id clock =>
      cases hclock
      unfold perform Act.cancel
      rw [post_discard]
      exact clocked_leaves hv fun _ h => cancelled_leaves h
  | orders since clock =>
      cases hclock
      unfold perform Act.ordersSince
      rw [post_discard, post_bind]
      refine Post.lift (fun _ _ => ?_) fun _ _ => .refl hv
      exact clocked_leaves hv fun _ h => (Carried.refl h).reads
  | fills since clock =>
      cases hclock
      unfold perform Act.fillsSince
      rw [post_discard, post_bind]
      refine Post.lift (fun _ _ => ?_) fun _ _ => .refl hv
      exact clocked_leaves hv fun _ h => (Carried.refl h).reads
  | connect clock => cases hclock
  | restore orders given positions => cases hclock
  | replace id clock => cases hclock
  | positions clock => cases hclock
  | processSnapshot s clock => cases hclock

theorem perform_plain (A : Arith) (cal : Calendars) {r : Request} (hv : v.Tidy) (hclock : r.clock? = none)
    (hrestore : ∀ orders given positions, r ≠ .restore orders given positions)
    (hsnapshot : ∀ s clock, r ≠ .processSnapshot s clock) :
    Post (fun _ => Carried v) (fun _ => Carried v) (perform A cal r v) := by
  cases r with
  | connect clock =>
      unfold perform Act.connect
      rw [post_discard, post_bind]
      apply Post.modify
      have h : Carried v { v with connected := true } :=
        ⟨⟨hv.keys, hv.ids⟩, rfl, rfl, fun _ w hw => ⟨w, hw, Or.inl rfl⟩⟩
      exact Post.lift (fun _ _ => h) fun _ _ => h
  | replace id clock =>
      unfold perform Act.replace
      rw [post_discard, post_bind, post_discard]
      refine Post.lift (fun _ _ => ?_) fun _ _ => .refl hv
      exact ack_leaves (.refl hv)
  | positions clock =>
      unfold perform Act.positions
      rw [post_discard, post_bind]
      refine Post.lift (fun _ _ => ?_) fun _ _ => .refl hv
      exact (Carried.refl hv).reads
  | restore orders given positions => exact absurd rfl (hrestore orders given positions)
  | processSnapshot s clock => exact absurd rfl (hsnapshot s clock)
  | submit o clock => cases hclock
  | cancel id clock => cases hclock
  | orders since clock => cases hclock
  | fills since clock => cases hclock

/-! ## Restoring -/

theorem Venue.Tidy.rewrite (hv : v.Tidy) (hget : v.orders.get id = some w) (hterms : w'.order = w.order) :
    (v.setOrder id w').Tidy :=
  hv.setOrder (hterms ▸ hv.ids id w hget)

theorem restoreOrder_tidy (o : VOrder) (state : OrderState) :
    Triple Venue.Tidy (Act.restoreOrder o state) (fun _ => Venue.Tidy) (fun _ => Venue.Tidy) := by
  intro v hv
  unfold Act.restoreOrder
  rw [post_bind]
  refine Post.lift (fun _ _ => ?_) fun _ _ => hv
  rw [post_bind]
  refine Post.lift (fun _ _ => ?_) fun _ _ => hv
  rw [post_bind]
  refine Post.lift (fun _ _ => ?_) fun _ _ => hv
  apply Post.modify
  exact hv.setOrder rfl

theorem restoreFill_tidy (totals : Act.Totals) (f : SFill) :
    Triple Venue.Tidy (Act.restoreFill A totals f) (fun _ => Venue.Tidy) (fun _ => Venue.Tidy) := by
  intro v hv
  unfold Act.restoreFill
  rw [post_bind]
  refine Post.lift (fun w hw => ?_) fun _ _ => hv
  have hget : v.orders.get f.orderId = some w := by
    cases hold : v.orders.get f.orderId with
    | none => simp [hold, err] at hw
    | some u =>
        simp only [hold, pure_eq_ok] at hw
        rw [hw]
  rw [post_bind]
  refine Post.lift (fun _ _ => ?_) fun _ _ => hv
  rw [post_bind]
  refine Post.lift (fun _ _ => ?_) fun _ _ => hv
  rw [post_bind]
  refine Post.lift (fun _ _ => ?_) fun _ _ => hv
  rw [post_bind]
  refine Post.lift (fun n _ => ?_) fun _ _ => hv
  rw [post_bind]
  apply Post.modify
  rw [post_bind]
  refine Post.lift (fun totals' _ => ?_) fun _ _ => ⟨hv.keys, hv.ids⟩
  rw [post_bind]
  apply Post.modify
  rw [post_bind]
  apply Post.modify
  have hset : (v.setOrder f.orderId { w with updatedAt := tsMax w.updatedAt f.filledAt }).Tidy :=
    hv.rewrite hget rfl
  exact ⟨hset.keys, hset.ids⟩

theorem restoreFills_tidy (totals : Act.Totals) (fs : List SFill) :
    Triple Venue.Tidy (Act.restoreFills A totals fs) (fun _ => Venue.Tidy) (fun _ => Venue.Tidy) := by
  induction fs generalizing totals with
  | nil => exact Triple.pure fun _ h => h
  | cons f fs ih => exact (restoreFill_tidy totals f).bind fun totals' => ih totals'

theorem settleRestored_tidy (totals : Act.Totals) (id : String) :
    Triple Venue.Tidy (Act.settleRestored A totals id) (fun _ => Venue.Tidy) (fun _ => Venue.Tidy) := by
  intro v hv
  unfold Act.settleRestored
  rw [post_bind]
  refine Post.lift (fun w hw => ?_) fun _ _ => hv
  rw [post_bind]
  refine Post.lift (fun filled _ => ?_) fun _ _ => hv
  rw [post_bind]
  apply Post.modify
  have hset : (v.setOrder id { w with filled := filled }).Tidy := hv.rewrite (Venue.require_ok hw) rfl
  exact Post.lift (fun _ _ => hset) fun _ _ => hset

theorem restorePosition_tidy (instr : Instrument) (qty : Money) :
    Triple Venue.Tidy (Act.restorePosition instr qty) (fun _ => Venue.Tidy) (fun _ => Venue.Tidy) := by
  intro v hv
  unfold Act.restorePosition
  rw [post_bind]
  apply Post.gets
  split
  · rw [post_bind]
    refine Post.lift (fun _ _ => ?_) fun _ _ => hv
    exact Post.lift (fun _ _ => hv) fun _ _ => hv
  · split
    · exact hv
    · apply Post.modify
      exact ⟨hv.keys, hv.ids⟩

/-- A venue that holds an order refuses to be restored. -/
theorem restore_leaves {orders : List (VOrder × OrderState)} {given : List SFill}
    {positions : List (Instrument × Money)} (hv : v.Tidy) :
    Post (fun _ v' => v'.Tidy ∧ v.orders.items = []) (fun _ v' => v'.Tidy ∧ (v.orders.items ≠ [] → v' = v))
      (Act.restore A orders given positions v) := by
  unfold Act.restore
  rw [post_bind]
  refine Post.lift (fun _ hempty => ?_) fun _ _ => ⟨hv, fun _ => rfl⟩
  have hitems : v.orders.items = [] := by
    simp only [refuseIf_eq_ok, not_not] at hempty
    exact hempty.1
  have hloops : Triple Venue.Tidy (do
      forEach (fun x => Act.restoreOrder x.1 x.2) orders
      let totals ← Act.restoreFills A [] (given.insertionSort fun f g => f.filledAt.lt g.filledAt = true ∨
        f.filledAt.eq g.filledAt = true ∧ (compare f.fillId g.fillId != .gt) = true)
      forEach (Act.settleRestored A totals) (← gets Venue.orderIds)
      forEach (fun x => Act.restorePosition x.1 x.2) positions) (fun _ => Venue.Tidy) (fun _ => Venue.Tidy) := by
    refine (Triple.forEach fun x _ => restoreOrder_tidy x.1 x.2).bind fun _ => ?_
    refine (restoreFills_tidy [] _).bind fun totals => ?_
    refine (Triple.gets (Q := fun _ => Venue.Tidy) fun _ h => h).bind fun ids => ?_
    refine (Triple.forEach fun id _ => settleRestored_tidy totals id).bind fun _ => ?_
    exact Triple.forEach fun x _ => restorePosition_tidy x.1 x.2
  exact (hloops v hv).weaken (fun _ _ h => ⟨h, hitems⟩) fun _ _ h => ⟨h, fun hne => absurd hitems hne⟩

/-! ## Runs -/

theorem new_tidy {accountId : String} {fraction fee slippage : Option Money} {stale : Option (Int → Bool)}
    (h : new accountId fraction fee slippage stale = .ok v) : v.Tidy := by
  simp only [new, bind_eq_ok] at h
  obtain ⟨_, -, _, -, _, -, _, -, h⟩ := h
  cases stale with
  | none => simp at h
  | some stale =>
      simp only [bind_eq_ok, pure_eq_ok] at h
      obtain ⟨_, -, rfl⟩ := h
      exact ⟨by simp [OMap.empty], by simp⟩

theorem noteSeen_tidy (hv : v.Tidy) : (Act.noteSeen s v).Tidy := ⟨hv.keys, hv.ids⟩

theorem after_tidy (A : Arith) (cal : Calendars) (hv : v.Tidy) (r : Request) : (after A cal v r).Tidy := by
  unfold after
  cases hclock : r.clock? with
  | some clock =>
      have h := (perform_clocked A cal hv hclock).weaken (fun _ _ h => h.carried) fun _ _ h => h
      exact h.reached.tidy
  | none =>
      by_cases hrestore : ∃ orders given positions, r = .restore orders given positions
      · obtain ⟨orders, given, positions, rfl⟩ := hrestore
        exact Post.reached ((restore_leaves hv).weaken (fun _ _ h => h.1) fun _ _ h => h.1)
      · by_cases hsnapshot : ∃ s clock, r = .processSnapshot s clock
        · obtain ⟨s, clock, rfl⟩ := hsnapshot
          apply Post.reached
          apply post_discard.mpr
          refine (processSnapshot_leaves hv s clock).weaken (fun _ _ h => ?_) fun _ _ h => ?_
          · obtain ⟨now, new, v₁, -, -, h, rfl⟩ := h
            exact noteSeen_tidy h.tidy
          · rcases h with ⟨-, rfl⟩ | ⟨now, new, -, -, h⟩
            · exact hv
            · exact h.tidy
        · push Not at hrestore hsnapshot
          exact (perform_plain A cal hv hclock hrestore hsnapshot).reached.tidy

theorem afterAll_tidy (A : Arith) (cal : Calendars) (hv : v.Tidy) (rs : List Request) :
    (afterAll A cal v rs).Tidy := by
  induction rs generalizing v with
  | nil => exact hv
  | cons r rs ih => exact ih (after_tidy A cal hv r)

/-! ## Proven sessions -/

theorem Proven.congr {o : VOrder} {close : Ts} (hseen : v₁.seen = v.seen) (h : Proven cal v o close) :
    Proven cal v₁ o close := by
  obtain ⟨hday, hclose, u, seen, hu, hget, hle⟩ := h
  exact ⟨hday, hclose, u, seen, hu, by rw [hseen]; exact hget, hle⟩

/-- The order is known not to have filled in its session, or has ended. -/
def Settled (cal : Calendars) (v : Venue) (id : String) (o : VOrder) (close : Ts) : Prop :=
  ∃ w, v.orders.get id = some w ∧ w.order = o ∧ (working w.state = false ∨ Proven cal v o close)

/-- The clock does not run back within a call. -/
def Request.Steady : Request → Prop
  | .processSnapshot _ clock => ∀ t u, clock 0 = .ok t → clock 1 = .ok u → t.le u = true
  | _ => True

/-- The order stays settled, and what a call fills of it, it fills before the close. -/
def Holds (cal : Calendars) (id : String) (o : VOrder) (close : Ts) (v v' : Venue) : Prop :=
  Settled cal v' id o close ∧ ∃ new, v'.fills = v.fills ++ new ∧ ∀ f ∈ new, f.orderId = id →
    f.filledAt.lt close = true

variable {o : VOrder} {close : Ts}

theorem Carried.holds (hsettled : Settled cal v id o close) (h : Carried v v₁) : Holds cal id o close v v₁ := by
  obtain ⟨w, hw, rfl, hproven⟩ := hsettled
  refine ⟨?_, [], by rw [h.fills, List.append_nil], by simp⟩
  obtain ⟨w', hw', hkept⟩ := h.kept id w hw
  refine ⟨w', hw', hkept.terms, ?_⟩
  rcases hkept with rfl | ⟨-, -, hended⟩
  · exact hproven.imp_right (Proven.congr h.seen)
  · exact Or.inl hended

/-- A settled order still working has its close to come. -/
theorem Eligible.before_close (hsettled : Settled cal v id o close) (hw : v.orders.get id = some w)
    (h : Eligible cal v s now w) : now.ge close = false := by
  obtain ⟨u, hu, rfl, hproven⟩ := hsettled
  rw [hw] at hu
  cases hu
  rcases hproven with hended | hproven
  · rw [h.live] at hended
    cases hended
  · exact h.inForce h.live close hproven

theorem openSnapshot_ok {clock : Clock} (h : Act.openSnapshot s clock v = .ok ()) :
    ∃ t, clock 0 = .ok t ∧ s.asOf.le t = true := by
  simp only [Act.openSnapshot, bind_eq_ok, refuseIf_eq_ok] at h
  obtain ⟨_, -, t, ht, hle⟩ := h
  exact ⟨t, ht, by simpa [Ts.le, Ts.gt] using hle⟩

/-- The fills a snapshot has made of a settled order. -/
theorem Worked.fills_before {new : List SFill} (hsettled : Settled cal v id o close)
    (hearly : s.asOf.le now = true) (h : Worked cal v s now new v₁) :
    ∀ f ∈ new, f.orderId = id → f.filledAt.lt close = true := by
  intro f hf hid
  obtain ⟨w, hw, heligible, hat, -⟩ := h.made f hf
  have hbefore := heligible.before_close hsettled (hid ▸ hw)
  rw [hat]
  exact Ts.lt_of_le_of_not_ge hearly hbefore

theorem Worked.settled {new : List SFill} (hsettled : Settled cal v id o close) (h : Worked cal v s now new v₁) :
    Settled cal v₁ id o close := by
  obtain ⟨w, hw, rfl, hproven⟩ := hsettled
  obtain ⟨w', hw', hchanged⟩ := h.present id w hw
  refine ⟨w', hw', hchanged.terms, ?_⟩
  cases hlive : working w'.state with
  | false => exact Or.inl rfl
  | true =>
      cases hchanged.of_working hlive
      have hstill := hproven.resolve_left (by rw [hlive]; simp)
      exact Or.inr (hstill.congr (by rw [h.rest]))

theorem Matching.settled {new : List SFill} (hsettled : Settled cal v id o close)
    (hearly : s.asOf.le now = true) (h : Matching cal v s now new v₁) :
    Settled cal (Act.noteSeen s v₁) id o close := by
  obtain ⟨w, hw, rfl, hproven⟩ := h.toWorked.settled hsettled
  refine ⟨w, hw, rfl, hproven.elim Or.inl fun hproven => ?_⟩
  cases hlive : working w.state with
  | false => exact Or.inl rfl
  | true =>
      right
      have hbefore : now.ge close = false :=
        h.inForce id w hw hlive close (hproven.congr (by rw [h.rest]))
      obtain ⟨hday, hclose, u, seen, hu, hget, hle, hle'⟩ := hproven
      have hasOf : s.asOf.lt close = true := Ts.lt_of_le_of_not_ge hearly hbefore
      refine ⟨hday, hclose, u, ?_⟩
      by_cases hsame : u = s.underlying
      · subst hsame
        refine ⟨tsMax seen s.asOf, hu, ?_, ?_⟩
        · simp [Act.noteSeen, hget]
        · unfold tsMax
          split
          · next hlater => exact ⟨Ts.le_trans hle (Ts.le_of_lt hlater), Ts.le_of_lt hasOf⟩
          · exact ⟨hle, hle'⟩
      · exact ⟨seen, hu, by simpa [Act.noteSeen, OMap.get_put_ne _ _ hsame] using hget, hle, hle'⟩

theorem processSnapshot_holds {clock : Clock} (hv : v.Tidy) (hsettled : Settled cal v id o close)
    (hsteady : (Request.processSnapshot s clock).Steady) :
    Post (fun _ => Holds cal id o close v) (fun _ => Holds cal id o close v)
      (Act.processSnapshot A cal s clock v) := by
  have hearly : ∀ {now}, Act.openSnapshot s clock v = .ok () → clock 1 = .ok now → s.asOf.le now = true := by
    intro now hopened hnow
    obtain ⟨t, ht, hle⟩ := openSnapshot_ok hopened
    exact Ts.le_trans hle (hsteady t now ht hnow)
  refine (processSnapshot_leaves hv s clock).weaken (fun _ v' h => ?_) fun _ v' h => ?_
  · obtain ⟨now, new, v₁, hopened, hnow, h, rfl⟩ := h
    have hnow := hearly hopened hnow
    exact ⟨h.settled hsettled hnow, new, h.fills, h.toWorked.fills_before hsettled hnow⟩
  · rcases h with ⟨-, rfl⟩ | ⟨now, new, hopened, hnow, h⟩
    · exact ⟨hsettled, [], (List.append_nil _).symm, by simp⟩
    · exact ⟨h.settled hsettled, new, h.fills, h.fills_before hsettled (hearly hopened hnow)⟩

theorem after_holds (A : Arith) {r : Request} (hv : v.Tidy) (hsettled : Settled cal v id o close)
    (hsteady : r.Steady) : Holds cal id o close v (after A cal v r) := by
  unfold after
  cases hclock : r.clock? with
  | some clock =>
      have h := (perform_clocked A cal hv hclock).weaken (fun _ _ h => h.carried) fun _ _ h => h
      exact h.reached.holds hsettled
  | none =>
      by_cases hrestore : ∃ orders given positions, r = .restore orders given positions
      · obtain ⟨orders, given, positions, rfl⟩ := hrestore
        have hne : v.orders.items ≠ [] := by
          obtain ⟨w, hw, -⟩ := hsettled
          obtain ⟨k, hk⟩ := OMap.mem_of_get hw
          exact List.ne_nil_of_mem hk
        have hsame : (perform A cal (.restore orders given positions) v).2 = v :=
          Post.reached (I := (· = v)) ((restore_leaves hv).weaken (fun _ _ h => absurd h.2 hne) fun _ _ h => h.2 hne)
        rw [hsame]
        exact ⟨hsettled, [], (List.append_nil _).symm, by simp⟩
      · by_cases hsnapshot : ∃ s clock, r = .processSnapshot s clock
        · obtain ⟨s, clock, rfl⟩ := hsnapshot
          exact Post.reached (post_discard.mpr (processSnapshot_holds hv hsettled hsteady))
        · push Not at hrestore hsnapshot
          exact (perform_plain A cal hv hclock hrestore hsnapshot).reached.holds hsettled

theorem afterAll_settled (A : Arith) {rs : List Request} (hv : v.Tidy) (hsettled : Settled cal v id o close)
    (hsteady : ∀ r ∈ rs, r.Steady) : Settled cal (afterAll A cal v rs) id o close := by
  induction rs generalizing v with
  | nil => exact hsettled
  | cons r rs ih =>
      obtain ⟨hr, hrs⟩ := List.forall_mem_cons.mp hsteady
      exact ih (after_tidy A cal hv r) (after_holds A hv hsettled hr).1 hrs

/-! ## The next call -/

/-- The instant a call lapses orders by. -/
def Request.instant? : Request → Option (R Ts)
  | .submit _ clock => some (clock 0)
  | .cancel _ clock => some (clock 0)
  | .orders _ clock => some (clock 0)
  | .fills _ clock => some (clock 0)
  | .processSnapshot _ clock => some (clock 1)
  | .connect _ => none
  | .restore _ _ _ => none
  | .replace _ _ => none
  | .positions _ => none

/-- An order whose session is proven and over is gone once the clock has gone through the orders. -/
theorem Lapsed.expires (hv : v.Tidy) (hw : v.orders.get id = some w) (hlive : working w.state = true)
    (hproven : Proven cal v w.order close) (hpast : now.ge close = true)
    (h : Lapsed cal v now v.orderIds v₁) : ∃ w', v₁.orders.get id = some w' ∧ w'.state = .expired := by
  obtain ⟨w', hw', rfl | hlapses⟩ := h.swept.present id w hw
  · have hlasts := h.swept.seen id (Venue.mem_orderIds hv hw) w' hw' hlive close hproven
    rw [hpast] at hlasts
    cases hlasts
  · obtain ⟨-, _, -, -, rfl⟩ := hlapses
    exact ⟨_, hw', rfl⟩

theorem Matching.expires {new : List SFill} (hw : v.orders.get id = some w) (hlive : working w.state = true)
    (hproven : Proven cal v w.order close) (hpast : now.ge close = true) (h : Matching cal v s now new v₁) :
    ∃ w', v₁.orders.get id = some w' ∧ w'.state = .expired := by
  have hnot : ¬ Lasts cal v now w := by
    intro hlasts
    have hbefore := hlasts hlive close hproven
    rw [hpast] at hbefore
    cases hbefore
  obtain ⟨w', hw', hchanged⟩ := h.present id w hw
  cases hchanged with
  | same => exact absurd (h.inForce id w hw') hnot
  | lapsed hlapses =>
      obtain ⟨-, _, -, -, rfl⟩ := hlapses
      exact ⟨_, hw', rfl⟩
  | rejected heligible => exact absurd heligible.inForce hnot
  | filled heligible => exact absurd heligible.inForce hnot

theorem perform_expires {r : Request} (hv : v.Tidy) (hw : v.orders.get id = some w)
    (hlive : working w.state = true) (hproven : Proven cal v w.order close)
    (hinstant : r.instant? = some (.ok now)) (hpast : now.ge close = true)
    (hrun : perform A cal r v = (.ok (), v₁)) : ∃ w', v₁.orders.get id = some w' ∧ w'.state = .expired := by
  cases hclock : r.clock? with
  | some clock =>
      have hnow : clock 0 = .ok now := by
        cases r with
        | submit o c => cases hclock; exact Option.some.inj hinstant
        | cancel id c => cases hclock; exact Option.some.inj hinstant
        | orders since c => cases hclock; exact Option.some.inj hinstant
        | fills since c => cases hclock; exact Option.some.inj hinstant
        | processSnapshot s c => cases hclock
        | connect c => cases hclock
        | restore orders given positions => cases hclock
        | replace id c => cases hclock
        | positions c => cases hclock
      obtain ⟨now', v', hnow', hlapsed, hcarried⟩ := (perform_clocked A cal hv hclock).ok hrun
      rw [hnow] at hnow'
      cases hnow'
      obtain ⟨w', hw', hexpired⟩ := hlapsed.expires hv hw hlive hproven hpast
      obtain ⟨u, hu, hkept⟩ := hcarried.kept id w' hw'
      rw [hkept.of_ended (by rw [hexpired]; rfl)] at hu
      exact ⟨w', hu, hexpired⟩
  | none =>
      cases r with
      | processSnapshot s clock =>
          have hperform : perform A cal (.processSnapshot s clock) v = _ :=
            discard_apply (Act.processSnapshot A cal s clock) v
          have hleaves : Post _ _ (Act.processSnapshot A cal s clock v) := processSnapshot_leaves hv s clock
          rw [hrun] at hperform
          rcases hstep : Act.processSnapshot A cal s clock v with ⟨e | made, v₂⟩
          · rw [hstep] at hperform
            cases hperform
          · rw [hstep] at hperform hleaves
            cases hperform
            obtain ⟨now', new, v₃, -, hnow', hmatching, rfl⟩ := hleaves
            rw [Option.some.inj hinstant] at hnow'
            cases hnow'
            obtain ⟨w', hw', hexpired⟩ := hmatching.expires hw hlive hproven hpast
            exact ⟨w', hw', hexpired⟩
      | submit o c => cases hclock
      | cancel id c => cases hclock
      | orders since c => cases hclock
      | fills since c => cases hclock
      | connect c => cases hinstant
      | restore orders given positions => cases hinstant
      | replace id c => cases hinstant
      | positions c => cases hinstant

end TradeEngine.Sim.Snapshot
