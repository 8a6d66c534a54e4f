import TradeEngine.Sim.Snapshot
import TradeEngine.Lib.Sweep

/-!
# What a snapshot leaves behind

A snapshot lapses, rejects and fills orders. After any number of these, carried through or cut off by a
refusal, the venue stands in one relation to the venue before the snapshot.
-/

namespace TradeEngine.Sim.Snapshot

open Lib Lib.Prog

variable {A : Arith} {cal : Calendars} {v v₁ v₂ : Venue} {s : Snap} {id : String} {w w' : Working} {now : Ts}

/-! ## Venues -/

/-- Orders are kept under their own ids. -/
structure Venue.Tidy (v : Venue) : Prop where
  keys : ∀ e ∈ v.orders.items, e.2.1 = e.1
  ids : ∀ id w, v.orders.get id = some w → w.order.id = id

theorem Venue.orderIds_eq (hv : v.Tidy) : v.orderIds = v.orders.items.map (·.1) := by
  unfold Venue.orderIds OMap.entries
  rw [List.map_map]
  exact List.map_congr_left hv.keys

theorem Venue.mem_orderIds (hv : v.Tidy) (hw : v.orders.get id = some w) : id ∈ v.orderIds := by
  rw [Venue.orderIds_eq hv]
  obtain ⟨k, hk⟩ := OMap.mem_of_get hw
  exact List.mem_map.mpr ⟨_, hk, rfl⟩

theorem Venue.get_setOrder (v : Venue) (id id' : String) (w : Working) :
    (v.setOrder id w).orders.get id' = if id' = id then some w else v.orders.get id' :=
  OMap.get_put _ _ _ _

theorem Venue.Tidy.setOrder (hv : v.Tidy) (hid : w.order.id = id) : (v.setOrder id w).Tidy where
  keys := OMap.forall_keys_insert (P := fun hk k => k = hk) hv.keys rfl
  ids id' u hu := by
    rw [Venue.get_setOrder] at hu
    split at hu
    · next heq =>
        cases hu
        rw [heq, hid]
    · exact hv.ids id' u hu

theorem Venue.Tidy.congr (hv : v.Tidy) (h : v₁.orders = v.orders) : v₁.Tidy := ⟨h ▸ hv.keys, h ▸ hv.ids⟩

theorem Venue.require_ok (h : v.require id = .ok w) : v.orders.get id = some w := by
  unfold Venue.require at h
  split at h
  · next u hu =>
      cases h
      exact hu
  · simp at h

/-! ## Sessions -/

/-- The close of the session a DAY order works in. -/
def closeOf (cal : Calendars) (o : VOrder) : R Ts := do cal.sessionClose (← cal.daySession o.submittedAt)

/-- The newest snapshot of the order's underlying is from its session, so the order is known not to
have filled in it. -/
def Proven (cal : Calendars) (v : Venue) (o : VOrder) (close : Ts) : Prop :=
  o.tif = .day ∧ closeOf cal o = .ok close ∧ ∃ u seen, underlyingOf o.instr = .ok u ∧
    v.seen.get u = some seen ∧ o.submittedAt.le seen = true ∧ seen.le close = true

/-- An order the clock lapses. -/
def Lapses (cal : Calendars) (v : Venue) (now : Ts) (w w' : Working) : Prop :=
  working w.state = true ∧ ∃ close, Proven cal v w.order close ∧ now.ge close = true ∧
    w' = { w with state := .expired, updatedAt := close }

/-- What still works has its close to come, or its session unproven. -/
def Lasts (cal : Calendars) (v : Venue) (now : Ts) (w : Working) : Prop :=
  working w.state = true → ∀ close, Proven cal v w.order close → now.ge close = false

theorem expireOne_cases (hseen : v₁.seen = v.seen) (hstep : expireOne cal now v₁ id = .ok v₂) :
    ∃ w, v₁.orders.get id = some w ∧ (v₂ = v₁ ∧ Lasts cal v now w ∨
      ∃ w', v₂ = v₁.setOrder id w' ∧ Lapses cal v now w w' ∧ Lasts cal v now w') := by
  simp only [expireOne, bind_eq_ok] at hstep
  obtain ⟨w, hw, hstep⟩ := hstep
  refine ⟨w, Venue.require_ok hw, ?_⟩
  split at hstep
  · next hidle =>
      cases hstep
      refine Or.inl ⟨rfl, fun hlive close hproven => ?_⟩
      rcases hidle with hdead | hday
      · rw [hlive] at hdead
        cases hdead
      · exact absurd hproven.1 hday
  · next hactive =>
      rw [not_or, not_not] at hactive
      obtain ⟨hlive, hday⟩ := hactive
      simp only [bind_eq_ok] at hstep
      obtain ⟨session, hsession, close, hclose, u, hu, hstep⟩ := hstep
      have hcloseOf : closeOf cal w.order = .ok close := bind_eq_ok.mpr ⟨session, hsession, hclose⟩
      -- what a proof of the session says in terms of the newest snapshot
      have hproof : ∀ close', Proven cal v w.order close' → close' = close ∧
          ∃ seen, v.seen.get u = some seen ∧ w.order.submittedAt.le seen = true ∧ seen.le close = true := by
        rintro close' ⟨-, hclose', u', seen, hu', hget, hle, hle'⟩
        rw [hcloseOf] at hclose'
        rw [hu] at hu'
        cases hclose'
        cases hu'
        exact ⟨rfl, seen, hget, hle, hle'⟩
      rw [hseen] at hstep
      cases hget : v.seen.get u with
      | none =>
          rw [hget] at hstep
          cases hstep
          refine Or.inl ⟨rfl, fun _ close' hproven => ?_⟩
          obtain ⟨-, seen, hseen, -⟩ := hproof close' hproven
          rw [hget] at hseen
          cases hseen
      | some seen =>
          simp only [hget] at hstep
          split at hstep
          · next hdue =>
              cases hstep
              simp only [Bool.and_eq_true] at hdue
              refine Or.inr ⟨_, rfl, ⟨by simpa using hlive, close, ?_, hdue.1.1, rfl⟩, fun h => by cases h⟩
              exact ⟨hday, hcloseOf, u, seen, hu, hget, hdue.1.2, hdue.2⟩
          · next hdue =>
              cases hstep
              refine Or.inl ⟨rfl, fun _ close' hproven => ?_⟩
              obtain ⟨rfl, seen', hseen', hle, hle'⟩ := hproof close' hproven
              rw [hget] at hseen'
              cases hseen'
              simpa [hle, hle'] using hdue

/-- The clock has gone through the orders of `done`. -/
structure Lapsed (cal : Calendars) (v : Venue) (now : Ts) (done : List String) (v' : Venue) : Prop where
  rest : v' = { v with orders := v'.orders }
  tidy : v'.Tidy
  swept : OMap.Swept (Lapses cal v now) (Lasts cal v now) v.orders done v'.orders

theorem Lapses.terms (h : Lapses cal v now w w') : w'.order = w.order := by
  obtain ⟨-, close, -, -, rfl⟩ := h
  rfl

theorem expireDue_leaves (hv : v.Tidy) (clock : R Ts) :
    Post (fun _ v' => ∃ now, clock = .ok now ∧ Lapsed cal v now v.orderIds v')
      (fun e v' => clock = .error e ∧ v' = v ∨ ∃ now done, clock = .ok now ∧ Lapsed cal v now done v')
      (Act.expireDue cal clock v) := by
  unfold Act.expireDue
  rw [post_bind]
  refine Post.lift (fun now hnow => ?_) fun _ he => Or.inl ⟨he, rfl⟩
  rw [post_bind]
  apply Post.gets
  have hnodup : v.orderIds.Nodup := by
    rw [Venue.orderIds_eq hv]
    exact v.orders.nodup
  refine (OMap.Swept.sweep (C := Lapses cal v now) (D := Lasts cal v now)
    (I := fun v' => v' = { v with orders := v'.orders } ∧ v'.Tidy) (·.orders) hnodup ⟨rfl, hv⟩ ?_).weaken
    (fun _ _ h => ⟨now, hnow, h.1.1, h.1.2, h.2⟩) fun _ _ ⟨h, done, hd⟩ => Or.inr ⟨now, done, hnow, h.1, h.2, hd⟩
  rintro v₁ v₂ id ⟨hrest, htidy⟩ hstep
  obtain ⟨w, hw, ⟨rfl, hlasts⟩ | ⟨w', rfl, hlapses, hlasts⟩⟩ := expireOne_cases (v := v) (by rw [hrest]) hstep
  · exact ⟨⟨hrest, htidy⟩, w, hw, Or.inl ⟨rfl, hlasts⟩⟩
  · refine ⟨⟨by rw [hrest]; rfl, htidy.setOrder ?_⟩, w, hw, Or.inr ⟨w', rfl, hlapses, hlasts⟩⟩
    rw [hlapses.terms]
    exact htidy.ids id w hw

/-! ## Filling -/

/-- What a fill of an order has done so far: the legs it booked. -/
structure Filling (o : VOrder) (at' : Ts) (made : List SFill) (v v' : Venue) : Prop where
  rest : v' = { v with fills := v'.fills, fillCounts := v'.fillCounts, positions := v'.positions }
  counts : ∀ id, id ≠ o.id → v'.fillCounts.get id = v.fillCounts.get id
  fills : v'.fills = v.fills ++ made
  facts : ∀ f ∈ made, f.orderId = o.id ∧ f.filledAt = at' ∧
    ∃ leg ∈ legs o, f.instr = .single leg.contract ∧ f.side = leg.side
  positions : ∀ hk, (∀ f ∈ made, f.instr.hk ≠ hk) → v'.positions.get hk = v.positions.get hk

variable {o : VOrder} {at' : Ts} {made : List SFill}

theorem Filling.start (v : Venue) : Filling o at' [] v v :=
  ⟨rfl, fun _ _ => rfl, (List.append_nil _).symm, by simp, fun _ _ => rfl⟩

theorem Filling.number (h : Filling o at' made v v₁) (n : Nat) :
    Filling o at' made v { v₁ with fillCounts := v₁.fillCounts.put o.id n } where
  rest := by rw [h.rest]
  counts id hne := (OMap.get_put_ne _ _ hne).trans (h.counts id hne)
  fills := h.fills
  facts := h.facts
  positions := h.positions

theorem Filling.book {f : SFill} (h : Filling o at' made v v₁) (hf : f.orderId = o.id ∧ f.filledAt = at' ∧
    ∃ leg ∈ legs o, f.instr = .single leg.contract ∧ f.side = leg.side) :
    Filling o at' (made ++ [f]) v { v₁ with fills := v₁.fills ++ [f] } where
  rest := by rw [h.rest]
  counts := h.counts
  fills := by rw [h.fills, List.append_assoc]
  facts g hg := by
    rcases List.mem_append.mp hg with hg | hg
    · exact h.facts g hg
    · rw [List.mem_singleton.mp hg]
      exact hf
  positions hk hne := h.positions hk fun g hg => hne g (List.mem_append_left _ hg)

theorem Filling.position {c : Contract} {qty : Money} (h : Filling o at' made v v₁)
    (hc : ∃ f ∈ made, f.instr = .single c) :
    Filling o at' made v { v₁ with positions := v₁.positions.insert c.hk (.single c) qty } where
  rest := by rw [h.rest]
  counts := h.counts
  fills := h.fills
  facts := h.facts
  positions hk hne := by
    obtain ⟨f, hf, hinstr⟩ := hc
    have hother : hk ≠ c.hk := by
      rintro rfl
      exact hne f hf (by rw [hinstr]; rfl)
    exact (OMap.get_insert_ne _ _ _ hother).trans (h.positions hk hne)

theorem fillLeg_leaves {units price : Money} {index : Nat} {leg : ComboLeg} (hleg : leg ∈ legs o)
    (h : Filling o at' made v v₁) :
    Post (fun _ v' => ∃ more, Filling o at' (made ++ more) v v')
      (fun _ v' => ∃ more, Filling o at' (made ++ more) v v')
      (Act.fillLeg A o units at' index leg price v₁) := by
  have hkeep : ∀ {v'}, Filling o at' made v v' → ∃ more, Filling o at' (made ++ more) v v' :=
    fun h => ⟨[], by rwa [List.append_nil]⟩
  unfold Act.fillLeg
  rw [post_bind]
  refine Post.lift (fun quantity _ => ?_) fun _ _ => hkeep h
  rw [post_bind]
  apply Post.get
  rw [post_bind]
  apply Post.modify
  have hnumbered := h.number (((v₁.fillCounts.get o.id).getD 0) + 1)
  rw [post_bind]
  refine Post.lift (fun fee _ => ?_) fun _ _ => hkeep hnumbered
  rw [post_bind]
  refine Post.lift (fun _ _ => ?_) fun _ _ => hkeep hnumbered
  rw [post_bind]
  refine Post.lift (fun _ _ => ?_) fun _ _ => hkeep hnumbered
  rw [post_bind]
  refine Post.lift (fun moved _ => ?_) fun _ _ => hkeep hnumbered
  rw [post_bind]
  apply Post.modify
  have hbooked := hnumbered.book (f := ⟨o.id ++ ":fill:" ++ toString (((v₁.fillCounts.get o.id).getD 0) + 1),
    o.id, .single leg.contract, quantity, price, at', leg.side, fee,
    if isCombo o then some (toString index) else none⟩) ⟨rfl, rfl, leg, hleg, rfl, rfl⟩
  rw [post_bind]
  apply Post.gets
  rw [post_bind]
  refine Post.change (fun v₂ hposition => ?_) fun _ _ => ⟨_, hbooked⟩
  simp only [Act.updatePosition, bind_eq_ok, pure_eq_ok] at hposition
  obtain ⟨qty, -, rfl⟩ := hposition
  exact ⟨_, hbooked.position ⟨_, List.mem_append_right _ (List.mem_singleton_self _), rfl⟩⟩

theorem fillLegs_leaves {units : Money} {index : Nat} {priced : List (ComboLeg × Money)}
    (hlegs : ∀ x ∈ priced, x.1 ∈ legs o) (h : Filling o at' made v v₁) :
    Post (fun _ v' => ∃ more, Filling o at' (made ++ more) v v')
      (fun _ v' => ∃ more, Filling o at' (made ++ more) v v')
      (Act.fillLegs A o units at' index priced v₁) := by
  induction priced generalizing index made v₁ with
  | nil => exact ⟨[], by rwa [List.append_nil]⟩
  | cons x rest ih =>
      obtain ⟨leg, price⟩ := x
      obtain ⟨hleg, hlegs⟩ := List.forall_mem_cons.mp hlegs
      unfold Act.fillLegs
      rw [post_bind]
      refine (fillLeg_leaves hleg h).weaken (fun _ v₂ h₂ => ?_) fun _ _ h => h
      obtain ⟨more, h₂⟩ := h₂
      have hmore : ∀ {v'}, (∃ more', Filling o at' (made ++ more ++ more') v v') →
          ∃ more', Filling o at' (made ++ more') v v' := by
        rintro v' ⟨more', h'⟩
        exact ⟨more ++ more', by rwa [← List.append_assoc]⟩
      rw [post_bind]
      exact (ih hlegs h₂).weaken (fun _ _ h => hmore h) fun _ _ h => hmore h

/-- A filled order has its legs booked; a refused one some of them. -/
theorem fill_leaves {prices : List Money} (hw : v.orders.get id = some w) :
    Post (fun _ v' => ∃ made v₁, Filling w.order at' made v v₁ ∧ v' = v₁.setOrder id
        { w with filled := w.order.quantity, state := .filled, updatedAt := at' })
      (fun _ v' => ∃ made, Filling w.order at' made v v') (Act.fill A id prices at' v) := by
  unfold Act.fill
  rw [post_bind]
  refine Post.lift (fun u hu => ?_) fun _ _ => ⟨[], .start v⟩
  have hu := Venue.require_ok hu
  rw [hw] at hu
  cases hu
  rw [post_bind]
  refine Post.lift (fun units _ => ?_) fun _ _ => ⟨[], .start v⟩
  rw [post_bind]
  refine (fillLegs_leaves (fun x hx => (List.of_mem_zip hx).1) (.start v)).weaken (fun _ v₁ h => ?_) fun _ v₁ h => ?_
  · obtain ⟨made, h⟩ := h
    exact ⟨made, v₁, h, rfl⟩
  · obtain ⟨made, h⟩ := h
    exact ⟨made, h⟩

/-! ## Matching -/

/-- The snapshot is for the order: it works on the snapshot's underlying, came no later, and is not due
by the clock. -/
structure Eligible (cal : Calendars) (v : Venue) (s : Snap) (now : Ts) (w : Working) : Prop where
  live : working w.state = true
  earlier : w.order.submittedAt.gt s.asOf = false
  underlying : underlyingOf w.order.instr = .ok s.underlying
  inForce : Lasts cal v now w

/-- One order before and after. -/
inductive Changed (cal : Calendars) (v : Venue) (s : Snap) (now : Ts) : Working → Working → Prop
  | same (w : Working) : Changed cal v s now w w
  | lapsed {w w' : Working} (h : Lapses cal v now w w') : Changed cal v s now w w'
  | rejected {w : Working} (h : Eligible cal v s now w) (hmarket : w.order.otype = .market) :
      Changed cal v s now w { w with state := .rejected, updatedAt := s.asOf }
  | filled {w : Working} (h : Eligible cal v s now w) :
      Changed cal v s now w { w with filled := w.order.quantity, state := .filled, updatedAt := s.asOf }

/-- A venue against the venue before the snapshot; `new` are the fills made so far. -/
structure Worked (cal : Calendars) (v : Venue) (s : Snap) (now : Ts) (new : List SFill) (v' : Venue) : Prop where
  rest : v' = { v with
    orders := v'.orders, fills := v'.fills, fillCounts := v'.fillCounts, positions := v'.positions }
  tidy : v'.Tidy
  absent : ∀ id, v.orders.get id = none → v'.orders.get id = none
  present : ∀ id w, v.orders.get id = some w → ∃ w', v'.orders.get id = some w' ∧ Changed cal v s now w w'
  fills : v'.fills = v.fills ++ new
  made : ∀ f ∈ new, ∃ w, v.orders.get f.orderId = some w ∧ Eligible cal v s now w ∧ f.filledAt = s.asOf ∧
    ∃ leg ∈ legs w.order, f.instr = .single leg.contract ∧ f.side = leg.side
  counts : ∀ id, v'.fillCounts.get id = v.fillCounts.get id ∨
    ∃ w, v.orders.get id = some w ∧ Eligible cal v s now w
  positions : ∀ hk, (∀ f ∈ new, f.instr.hk ≠ hk) → v'.positions.get hk = v.positions.get hk

variable {new : List SFill}

theorem Changed.terms (h : Changed cal v s now w w') : w'.order = w.order := by
  cases h with
  | same => rfl
  | lapsed h => exact h.terms
  | rejected => rfl
  | filled => rfl

/-- An order that still works is as it was. -/
theorem Changed.of_working (h : Changed cal v s now w w') (hlive : working w'.state = true) : w' = w := by
  cases h with
  | same => rfl
  | lapsed h =>
      obtain ⟨-, close, -, -, rfl⟩ := h
      cases hlive
  | rejected => cases hlive
  | filled => cases hlive

theorem Lapsed.worked {done : List String} (h : Lapsed cal v now done v₁) : Worked cal v s now [] v₁ where
  rest := by rw [h.rest]
  tidy := h.tidy
  absent := h.swept.absent
  present id w hw := by
    obtain ⟨w', hw', rfl | hlapses⟩ := h.swept.present id w hw
    · exact ⟨w', hw', .same w'⟩
    · exact ⟨w', hw', .lapsed hlapses⟩
  fills := by rw [h.rest, List.append_nil]
  made := by simp
  counts _ := by
    left
    rw [h.rest]
  positions _ _ := by rw [h.rest]

/-- Orders are being matched: none that still works is due. -/
structure Matching (cal : Calendars) (v : Venue) (s : Snap) (now : Ts) (new : List SFill) (v' : Venue) : Prop
    extends Worked cal v s now new v' where
  inForce : ∀ id w, v'.orders.get id = some w → Lasts cal v now w

theorem Lapsed.matching (hv : v.Tidy) (h : Lapsed cal v now v.orderIds v₁) : Matching cal v s now [] v₁ := by
  refine ⟨h.worked, fun id w hw => ?_⟩
  cases horig : v.orders.get id with
  | none =>
      rw [h.swept.absent id horig] at hw
      cases hw
  | some u => exact h.swept.seen id (Venue.mem_orderIds hv horig) w hw

/-- An order of the venue that still works was there before, as it is. -/
theorem Worked.origin (h : Worked cal v s now new v₁) (hw : v₁.orders.get id = some w)
    (hlive : working w.state = true) : v.orders.get id = some w := by
  cases horig : v.orders.get id with
  | none =>
      rw [h.absent id horig] at hw
      cases hw
  | some u =>
      obtain ⟨w', hw', hchanged⟩ := h.present id u horig
      rw [hw] at hw'
      cases hw'
      rw [hchanged.of_working hlive]

/-- An order that worked is ended. -/
theorem Matching.write (h : Matching cal v s now new v₁) (hget : v.orders.get id = some w)
    (hchanged : Changed cal v s now w w') (hended : working w'.state = false) :
    Matching cal v s now new (v₁.setOrder id w') where
  rest := by rw [h.rest]; rfl
  tidy := by
    apply h.tidy.setOrder
    obtain ⟨u, hu, hold⟩ := h.present id w hget
    rw [hchanged.terms, ← hold.terms]
    exact h.tidy.ids id u hu
  absent id' hnone := by
    rw [Venue.get_setOrder]
    split
    · next heq =>
        subst heq
        rw [hget] at hnone
        cases hnone
    · exact h.absent id' hnone
  present id' u hu := by
    rw [Venue.get_setOrder]
    split
    · next heq =>
        subst heq
        rw [hget] at hu
        cases hu
        exact ⟨w', rfl, hchanged⟩
    · exact h.present id' u hu
  fills := h.fills
  made := h.made
  counts := h.counts
  positions := h.positions
  inForce id' u hu := by
    rw [Venue.get_setOrder] at hu
    split at hu
    · cases hu
      intro hlive
      rw [hended] at hlive
      cases hlive
    · exact h.inForce id' u hu

/-- Legs booked for an order the snapshot is for. -/
theorem Matching.filling (hv : v.Tidy) (h : Matching cal v s now new v₁) (hget : v.orders.get id = some w)
    (heligible : Eligible cal v s now w) (hfill : Filling w.order s.asOf made v₁ v₂) :
    Matching cal v s now (new ++ made) v₂ := by
  have horders : v₂.orders = v₁.orders := by rw [hfill.rest]
  have hid := hv.ids id w hget
  constructor
  · constructor
    · rw [hfill.rest, h.rest]
    · exact h.tidy.congr horders
    · intro id' hnone
      rw [horders]
      exact h.absent id' hnone
    · intro id' u hu
      rw [horders]
      exact h.present id' u hu
    · rw [hfill.fills, h.fills, List.append_assoc]
    · intro f hf
      rcases List.mem_append.mp hf with hf | hf
      · exact h.made f hf
      · obtain ⟨horder, hat, hleg⟩ := hfill.facts f hf
        rw [hid] at horder
        exact ⟨w, horder ▸ hget, heligible, hat, hleg⟩
    · intro id'
      by_cases heq : id' = id
      · exact Or.inr ⟨w, heq ▸ hget, heligible⟩
      · rw [hfill.counts id' (by rwa [hid])]
        exact h.counts id'
    · intro hk hne
      rw [hfill.positions hk fun f hf => hne f (List.mem_append_right _ hf)]
      exact h.positions hk fun f hf => hne f (List.mem_append_left _ hf)
  · intro id' u hu
    rw [horders] at hu
    exact h.inForce id' u hu

theorem concerns_true (h : Act.concerns s w = .ok true) : working w.state = true ∧
    w.order.submittedAt.gt s.asOf = false ∧ underlyingOf w.order.instr = .ok s.underlying := by
  unfold Act.concerns at h
  split at h
  · simp at h
  · next hopen =>
      simp only [bind_eq_ok, pure_eq_ok, beq_iff_eq] at h
      obtain ⟨u, hu, rfl⟩ := h
      rw [not_or] at hopen
      exact ⟨by simpa using hopen.1, by simpa using hopen.2, hu⟩

theorem matchOrder_leaves (hv : v.Tidy) (h : Matching cal v s now new v₁) :
    Post (fun _ v' => ∃ more, Matching cal v s now (new ++ more) v')
      (fun _ v' => ∃ more, Matching cal v s now (new ++ more) v') (Act.matchOrder A s id v₁) := by
  have hkeep : ∀ {v'}, Matching cal v s now new v' → ∃ more, Matching cal v s now (new ++ more) v' :=
    fun h => ⟨[], by rwa [List.append_nil]⟩
  unfold Act.matchOrder
  rw [post_bind]
  refine Post.lift (fun w hw => ?_) fun _ _ => hkeep h
  have hw := Venue.require_ok hw
  rw [post_bind]
  refine Post.lift (fun mine hmine => ?_) fun _ _ => hkeep h
  cases mine with
  | false => exact hkeep h
  | true =>
      obtain ⟨hlive, hearlier, hunderlying⟩ := concerns_true hmine
      have hget := h.origin hw hlive
      have heligible : Eligible cal v s now w := ⟨hlive, hearlier, hunderlying, h.inForce id w hw⟩
      simp only [Bool.not_true, Bool.false_eq_true, if_false]
      rw [post_bind]
      refine Post.lift (fun prices _ => ?_) fun _ _ => hkeep h
      cases prices with
      | none =>
          by_cases hmarket : w.order.otype = .market
          · simp only [hmarket, if_true]
            rw [post_bind]
            apply Post.modify
            exact hkeep (h.write hget (.rejected heligible hmarket) rfl)
          · simp only [hmarket, if_false]
            exact hkeep h
      | some prices =>
          dsimp only
          rw [post_bind]
          refine Post.lift (fun filled _ => ?_) fun _ _ => hkeep h
          cases filled with
          | none => exact hkeep h
          | some filled =>
              refine (fill_leaves hw).weaken (fun _ v' hfill => ?_) fun _ v' hfill => ?_
              · obtain ⟨made, v₂, hfill, rfl⟩ := hfill
                exact ⟨made, (h.filling hv hget heligible hfill).write hget (.filled heligible) rfl⟩
              · obtain ⟨made, hfill⟩ := hfill
                exact ⟨made, h.filling hv hget heligible hfill⟩

theorem matchOrders_leaves {ids : List String} (hv : v.Tidy) (h : Matching cal v s now new v₁) :
    Post (fun _ v' => ∃ more, Matching cal v s now (new ++ more) v')
      (fun _ v' => ∃ more, Matching cal v s now (new ++ more) v') (Act.matchOrders A s ids v₁) := by
  induction ids generalizing new v₁ with
  | nil => exact ⟨[], by rwa [List.append_nil]⟩
  | cons id ids ih =>
      unfold Act.matchOrders
      rw [post_bind]
      refine (matchOrder_leaves hv h).weaken (fun _ v₂ h₂ => ?_) fun _ _ h => h
      obtain ⟨more, h₂⟩ := h₂
      have hmore : ∀ {v'}, (∃ more', Matching cal v s now (new ++ more ++ more') v') →
          ∃ more', Matching cal v s now (new ++ more') v' := by
        rintro v' ⟨more', h'⟩
        exact ⟨more ++ more', by rwa [← List.append_assoc]⟩
      rw [post_bind]
      exact (ih h₂).weaken (fun _ _ h => hmore h) fun _ _ h => hmore h

/-- A snapshot is refused while it is worked off: the parts of the step before the refused one have been
carried through, one after the other, and none comes after it. -/
inductive CutOff (A : Arith) (cal : Calendars) (v : Venue) (s : Snap) (now : Ts) (e : LErr) (v' : Venue) : Prop
  | lapsing {before after : List String} {id : String} (orders : v.orderIds = before ++ id :: after)
      (done : forEach (fun id => change (expireOne cal now · id)) before v = (.ok (), v'))
      (refused : expireOne cal now v' id = .error e)
  | matching {v₁ v₂ : Venue} {before after : List String} {id : String} {out : List Nat}
      (lapsed : forEach (fun id => change (expireOne cal now · id)) v.orderIds v = (.ok (), v₁))
      (orders : Act.queue v₁ = before ++ id :: after)
      (done : Act.matchOrders A s before v₁ = (.ok out, v₂))
      (refused : Act.matchOrder A s id v₂ = (.error e, v'))

theorem processSnapshot_cutOff {clock : Clock} {e : LErr} {v' : Venue}
    (h : Act.processSnapshot A cal s clock v = (.error e, v')) :
    (Act.openSnapshot s clock v = .error e ∨ clock 1 = .error e) ∧ v' = v ∨
      ∃ now, clock 1 = .ok now ∧ CutOff A cal v s now e v' := by
  unfold Act.processSnapshot Act.expireDue at h
  rw [bind_error] at h
  rcases h with h | ⟨_, _, hopened, h⟩
  · obtain ⟨hrefused, rfl⟩ := Prod.mk.inj h
    exact Or.inl ⟨Or.inl hrefused, rfl⟩
  obtain ⟨-, rfl⟩ := Prod.mk.inj hopened
  rw [bind_error] at h
  rcases h with h | ⟨_, v₁, hlapsed, h⟩
  · rw [bind_error] at h
    rcases h with h | ⟨now, _, hread, h⟩
    · obtain ⟨hrefused, rfl⟩ := Prod.mk.inj h
      exact Or.inl ⟨Or.inr hrefused, rfl⟩
    obtain ⟨hnow, rfl⟩ := Prod.mk.inj hread
    rw [bind_error] at h
    rcases h with h | ⟨_, _, hids, h⟩
    · cases h
    cases hids
    obtain ⟨before, id, after, v₁, hids, hdone, hstop⟩ := forEach_stopped h
    obtain ⟨hrefused, rfl⟩ := change_error hstop
    exact Or.inr ⟨now, hnow, .lapsing hids hdone hrefused⟩
  · rw [bind_ok] at hlapsed
    obtain ⟨now, _, hread, hlapsed⟩ := hlapsed
    obtain ⟨hnow, rfl⟩ := Prod.mk.inj hread
    rw [bind_ok] at hlapsed
    obtain ⟨_, _, hids, hlapsed⟩ := hlapsed
    cases hids
    rw [bind_error] at h
    rcases h with h | ⟨_, _, hqueue, h⟩
    · cases h
    cases hqueue
    rw [bind_error] at h
    rcases h with h | ⟨_, _, -, h⟩
    · obtain ⟨before, id, after, out, v₂, hids, hdone, hstop⟩ :=
        stopped_at (Act.matchOrder A s) (Act.matchOrders A s) (fun _ made rest => made ++ rest) rfl
          (fun _ _ => rfl) h
      exact Or.inr ⟨now, hnow, .matching hlapsed hids hdone hstop⟩
    · rw [bind_error] at h
      rcases h with h | ⟨_, _, -, h⟩ <;> cases h

theorem processSnapshot_leaves (hv : v.Tidy) (s : Snap) (clock : Clock) :
    Post
      (fun _ v' => ∃ now new v₁, Act.openSnapshot s clock v = .ok () ∧ clock 1 = .ok now ∧
        Matching cal v s now new v₁ ∧ v' = Act.noteSeen s v₁)
      (fun e v' => (Act.openSnapshot s clock v = .error e ∨ clock 1 = .error e) ∧ v' = v ∨
        ∃ now new, Act.openSnapshot s clock v = .ok () ∧ clock 1 = .ok now ∧ Worked cal v s now new v')
      (Act.processSnapshot A cal s clock v) := by
  unfold Act.processSnapshot
  rw [post_bind]
  refine Post.lift (fun _ hopened => ?_) fun _ he => Or.inl ⟨Or.inl he, rfl⟩
  rw [post_bind]
  refine (expireDue_leaves hv (clock 1)).weaken (fun _ v₁ h => ?_) fun e v₁ h => ?_
  · obtain ⟨now, hnow, hlapsed⟩ := h
    rw [post_bind]
    apply Post.gets
    rw [post_bind]
    refine (matchOrders_leaves hv (hlapsed.matching hv)).weaken (fun _ v₂ h => ?_) fun _ v₂ h => ?_
    · obtain ⟨new, h⟩ := h
      rw [post_bind]
      apply Post.modify
      exact ⟨now, new, v₂, hopened, hnow, h, rfl⟩
    · obtain ⟨new, h⟩ := h
      exact Or.inr ⟨now, new, hopened, hnow, h.toWorked⟩
  · rcases h with ⟨he, rfl⟩ | ⟨now, done, hnow, hlapsed⟩
    · exact Or.inl ⟨Or.inr he, rfl⟩
    · exact Or.inr ⟨now, [], hopened, hnow, hlapsed.worked⟩

end TradeEngine.Sim.Snapshot
