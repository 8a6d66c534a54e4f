import TradeEngine.Sim.Lemmas.Sweeps

/-!
# What a bar leaves behind

A bar lapses orders, notes triggers and fills. After any number of these, carried through or cut off
by a refusal, the book stands in one relation to the book before the bar.
-/

namespace TradeEngine.Sim

open Lib Lib.Prog

/-! ## What can have changed -/

variable {A : Arith} {cal : Calendars} {b b₁ b₂ : Book} {bar : Bar} {id : String} {w w' : Working}

/-- The bar comes after the order's submission and finds it working and in force. -/
structure Ready (cal : Calendars) (b : Book) (bar : Bar) (w : Working) : Prop where
  instr : w.order.instr = bar.instr
  live : working w.state = true
  later : w.order.submittedAt.lt bar.ts = true
  inForce : b.hasExpired cal w.order bar.ts = .ok false

/-- One order before and after. -/
inductive Changed (A : Arith) (cal : Calendars) (b : Book) (bar : Bar) (new : List VFill) : Working → Working → Prop
  | same (w : Working) : Changed A cal b bar new w w
  | lapsed {w : Working} (hinstr : w.order.instr = bar.instr) (hlive : working w.state = true)
      (h : b.hasExpired cal w.order bar.ts = .ok true) :
      Changed A cal b bar new w { w with state := .expired, updatedAt := bar.ts }
  | noted {w : Working} (h : Ready cal b bar w) (t : Bool) : Changed A cal b bar new w { w with triggered := t }
  | filled {w : Working} {f : VFill} {total : Money} (h : Ready cal b bar w) (t : Bool) (hf : f ∈ new)
      (hid : f.orderId = w.order.id) (htotal : Ops.add A w.filled f.quantity = .ok total) :
      Changed A cal b bar new w ({ w with triggered := t }.take total bar.ts)

/-- A book against the book before the bar: `new` are the fills made so far, each at one of the prices
in `choices`. -/
structure Worked (A : Arith) (cal : Calendars) (b : Book) (bar : Bar) (choices : List (String × Money))
    (new : List VFill) (b' : Book) : Prop where
  rest : b' = { b with
    orders := b'.orders, fills := b'.fills, fillCounts := b'.fillCounts, positions := b'.positions }
  tidy : b'.Tidy
  absent : ∀ id, b.orders.get id = none → b'.orders.get id = none
  present : ∀ id w, b.orders.get id = some w →
    ∃ w', b'.orders.get id = some w' ∧ Changed A cal b bar new w w'
  fills : b'.fills = b.fills ++ new
  made : ∀ f ∈ new, ∃ w, b.orders.get f.orderId = some w ∧ Ready cal b bar w ∧ f.instr = w.order.instr ∧
    f.side = w.order.side ∧ f.filledAt = bar.ts ∧ (f.orderId, f.price) ∈ choices
  counts : ∀ id, b'.fillCounts.get id = b.fillCounts.get id ∨
    ∃ w, b.orders.get id = some w ∧ Ready cal b bar w
  positions : ∀ hk, new = [] ∨ hk ≠ bar.instr.hk → b'.positions.get hk = b.positions.get hk

variable {choices : List (String × Money)} {new : List VFill}

theorem Worked.start (hb : b.Tidy) : Worked A cal b bar choices [] b where
  rest := rfl
  tidy := hb
  absent _ h := h
  present _ w hw := ⟨w, hw, .same w⟩
  fills := (List.append_nil _).symm
  made := by simp
  counts _ := Or.inl rfl
  positions _ _ := rfl

theorem Worked.venue (h : Worked A cal b bar choices new b₁) : b₁.venue = b.venue := by rw [h.rest]

/-- An order of the book came from one with the same terms. -/
theorem Worked.origin (h : Worked A cal b bar choices new b₁) (hw : b₁.orders.get id = some w') :
    ∃ w, b.orders.get id = some w ∧ Changed A cal b bar new w w' := by
  cases horig : b.orders.get id with
  | none =>
      rw [h.absent id horig] at hw
      cases hw
  | some w =>
      obtain ⟨v, hv, hchanged⟩ := h.present id w horig
      rw [hw] at hv
      cases hv
      exact ⟨w, rfl, hchanged⟩

theorem Changed.terms (h : Changed A cal b bar new w w') : w'.order = w.order := by
  cases h with
  | same => rfl
  | lapsed => rfl
  | noted => rfl
  | filled => rfl

theorem Changed.more {more : List VFill} (h : Changed A cal b bar new w w') (hsub : ∀ f ∈ new, f ∈ more) :
    Changed A cal b bar more w w' := by
  cases h with
  | same => exact .same w
  | lapsed hinstr hlive h => exact .lapsed hinstr hlive h
  | noted h t => exact .noted h t
  | filled h t hf hid htotal => exact .filled h t (hsub _ hf) hid htotal

/-- An order that still works was working before the bar, and has at most filled in part. -/
theorem Changed.ready (h : Changed A cal b bar new w w') (hlive : working w'.state = true)
    (hinstr : w'.order.instr = bar.instr) (hlater : w'.order.submittedAt.lt bar.ts = true)
    (hforce : b.hasExpired cal w'.order bar.ts = .ok false) : Ready cal b bar w := by
  cases h with
  | same => exact ⟨hinstr, hlive, hlater, hforce⟩
  | lapsed _ _ _ => cases hlive
  | noted h _ => exact h
  | filled h => exact h

/-- One order of the book written back. -/
theorem Worked.write (h : Worked A cal b bar choices new b₁) (hget : b.orders.get id = some w)
    (hterms : w'.order = w.order) (hchanged : Changed A cal b bar new w w') :
    Worked A cal b bar choices new (b₁.setOrder id w') where
  rest := by rw [h.rest]; rfl
  tidy := by
    obtain ⟨v, hv, hvchanged⟩ := h.present id w hget
    exact h.tidy.rewrite hv (hterms.trans hvchanged.terms.symm)
  absent id' hnone := by
    rw [Book.get_setOrder]
    split
    · next heq =>
        subst heq
        rw [hget] at hnone
        cases hnone
    · exact h.absent id' hnone
  present id' v hv := by
    rw [Book.get_setOrder]
    split
    · next heq =>
        subst heq
        rw [hget] at hv
        cases hv
        exact ⟨w', rfl, hchanged⟩
    · exact h.present id' v hv
  fills := h.fills
  made := h.made
  counts := h.counts
  positions := h.positions

/-! ## Lapsing -/

/-- An order the bar lapses. -/
def Lapses (cal : Calendars) (b : Book) (bar : Bar) (w w' : Working) : Prop :=
  w.order.instr = bar.instr ∧ working w.state = true ∧ b.hasExpired cal w.order bar.ts = .ok true ∧
    w' = { w with state := .expired, updatedAt := bar.ts }

/-- What still works in the bar's instrument is in force. -/
def Lasts (cal : Calendars) (b : Book) (bar : Bar) (w : Working) : Prop :=
  w.order.instr = bar.instr → working w.state = true → b.hasExpired cal w.order bar.ts = .ok false

theorem Swept.worked (A : Arith) {done : List String} (h : Swept (Lapses cal b bar) (Lasts cal b bar) b done b₁) :
    Worked A cal b bar [] [] b₁ where
  rest := by rw [h.rest]
  tidy := h.tidy
  absent := h.absent
  present id w hw := by
    obtain ⟨w', hw', -, rfl | ⟨hinstr, hlive, hexpired, rfl⟩⟩ := h.present id w hw
    · exact ⟨w', hw', .same w'⟩
    · exact ⟨_, hw', .lapsed hinstr hlive hexpired⟩
  fills := by rw [h.rest, List.append_nil]
  made := by simp
  counts _ := by
    left
    rw [h.rest]
  positions _ _ := by rw [h.rest]

theorem expireAt_cases (hvenue : b₁.venue = b.venue) (hget : b₁.orders.get id = some w)
    (hstep : Book.expireAt cal bar b₁ id = .ok b₂) :
    b₂ = b₁ ∧ Lasts cal b bar w ∨ ∃ w', b₂ = b₁.setOrder id w' ∧ w'.order = w.order ∧
      Lapses cal b bar w w' ∧ Lasts cal b bar w' := by
  simp only [Book.expireAt, bind_eq_ok] at hstep
  obtain ⟨v, hv, hstep⟩ := hstep
  rw [Book.requireOrder_ok hv] at hget
  cases hget
  split at hstep
  · next hlive =>
      rw [Bool.and_eq_true, decide_eq_true_eq] at hlive
      obtain ⟨expired, hexpired, hstep⟩ := bind_eq_ok.mp hstep
      rw [Book.hasExpired_congr hvenue] at hexpired
      cases expired with
      | true =>
          cases hstep
          exact Or.inr ⟨_, rfl, rfl, ⟨hlive.1, hlive.2, hexpired, rfl⟩, fun _ hworks => nomatch hworks⟩
      | false =>
          cases hstep
          exact Or.inl ⟨rfl, fun _ _ => hexpired⟩
  · next hlive =>
      cases hstep
      exact Or.inl ⟨rfl, fun hinstr hworks => absurd (by simp [hinstr, hworks]) hlive⟩

theorem requireOrder_of_bind {α : Type} {f : Working → R α} {a : α} (h : (b.requireOrder id >>= f) = .ok a) :
    ∃ w, b.orders.get id = some w := by
  obtain ⟨w, hw, -⟩ := bind_eq_ok.mp h
  exact ⟨w, Book.requireOrder_ok hw⟩

/-- After the pass every working order of the instrument is in force. -/
theorem expiry_leaves (hb : b.Tidy) :
    Post (fun _ b' => Swept (Lapses cal b bar) (Lasts cal b bar) b b.orderIds b')
      (fun _ b' => Worked A cal b bar [] [] b')
      (forEach (fun id => change (Book.expireAt cal bar · id)) b.orderIds b) := by
  refine (sweep_leaves hb (fun b₁ b₂ id w hrest hget hstep => ?_) fun _ _ _ hstep => ?_).weaken
    (fun _ _ h => h) fun _ _ ⟨_, h⟩ => h.worked A
  · exact expireAt_cases (by rw [hrest]) hget hstep
  · exact requireOrder_of_bind hstep

/-! ## Prices -/

/-- The bar reaches the stop price of a stop order, after its submission. -/
def StopTouched (bar : Bar) (o : VOrder) : Prop :=
  o.otype = .stop ∧ o.submittedAt.lt bar.ts = true ∧
    ∃ stop, o.stop = some stop ∧ (stopBase o.side stop bar).isSome = true

/-- A price a bar may fill an order at. -/
def Eligible (cal : Calendars) (b : Book) (bar : Bar) (c : String × Money) : Prop :=
  ∃ w, b.orders.get c.1 = some w ∧ Ready cal b bar w ∧ w.order.Protects c.2

/-- Orders are being priced: those of `ids` work in the bar's instrument, and whatever works there is
in force. -/
structure Pricing (A : Arith) (cal : Calendars) (b : Book) (bar : Bar) (ids : List String) (b' : Book) : Prop where
  worked : Worked A cal b bar [] [] b'
  inForce : ∀ id w, b'.orders.get id = some w → w.order.instr = bar.instr → working w.state = true →
    b.hasExpired cal w.order bar.ts = .ok false
  live : ∀ id ∈ ids, ∀ w, b'.orders.get id = some w → w.order.instr = bar.instr ∧ working w.state = true

theorem executionBase_protects {base : Money} (h : b.executionBase cal w bar = .ok (w', some base)) :
    w.order.Protects base := by
  intro htype limit hlimit
  unfold Book.executionBase at h
  split at h
  · obtain ⟨opening, -, h⟩ := bind_eq_ok.mp h
    split at h
    · simp at h
    · next hmarket =>
        rw [Bool.or_eq_true, not_or] at hmarket
        have hm : w.order.otype = .market := by simpa using hmarket.2
        rw [hm] at htype
        rcases htype with hc | hc <;> cases hc
  · rw [hlimit] at h
    rcases htype with hl | hl
    · rw [hl] at h
      simp only [pure_eq_ok, Prod.mk.injEq] at h
      exact limitBase_protects h.2
    · rw [hl] at h
      obtain ⟨⟨t, found⟩, hbase, h⟩ := bind_eq_ok.mp h
      simp only [pure_eq_ok, Prod.mk.injEq] at h
      obtain ⟨-, rfl⟩ := h
      exact stopLimitBase_protects hlimit hbase

/-- A bar that reaches a stop prices it. -/
theorem executionBase_stop {base : Option Money} (htif : w.order.tif ≠ .opg) (hstop : StopTouched bar w.order)
    (h : b.executionBase cal w bar = .ok (w', base)) : base.isSome = true := by
  obtain ⟨htype, -, stop, hget, hsome⟩ := hstop
  unfold Book.executionBase at h
  rw [if_neg htif, htype, hget] at h
  simp only [pure_eq_ok, Prod.mk.injEq] at h
  rw [← h.2]
  exact hsome

theorem Pricing.note {ids : List String} (h : Pricing A cal b bar ids b₁) (hid : id ∈ ids)
    (hget : b₁.orders.get id = some w) (hlater : w.order.submittedAt.lt bar.ts = true) (t : Bool) :
    Pricing A cal b bar ids (b₁.setOrder id { w with triggered := t }) := by
  obtain ⟨v, hv, hchanged⟩ := h.worked.origin hget
  obtain ⟨hinstr, hlive⟩ := h.live id hid w hget
  have hready := hchanged.ready hlive hinstr hlater (h.inForce id w hget hinstr hlive)
  have hnoted : Changed A cal b bar [] v { w with triggered := t } := by
    cases hchanged with
    | same => exact .noted hready t
    | lapsed => cases hlive
    | noted _ _ => exact .noted hready t
    | filled _ _ hf => cases hf
  refine ⟨h.worked.write hv hnoted.terms hnoted, ?_, ?_⟩
  · intro id' u hu hinstr' hlive'
    rw [Book.get_setOrder] at hu
    split at hu
    · cases hu
      exact h.inForce id w hget hinstr hlive
    · exact h.inForce id' u hu hinstr' hlive'
  · intro id' hid' u hu
    rw [Book.get_setOrder] at hu
    split at hu
    · cases hu
      exact ⟨hinstr, hlive⟩
    · exact h.live id' hid' u hu

theorem executionPrice_leaves {ids : List String} (h : Pricing A cal b bar ids b₁) (hid : id ∈ ids) :
    Post
      (fun price b' => Pricing A cal b bar ids b' ∧ (∀ p, price = some p → Eligible cal b bar (id, p)) ∧
        ∀ w, b.orders.get id = some w → StopTouched bar w.order → price.isSome = true)
      (fun _ b' => Worked A cal b bar [] [] b') (Act.executionPrice cal bar id b₁) := by
  unfold Act.executionPrice
  rw [post_bind]
  refine Post.lift (fun w hw => ?_) fun _ _ => h.worked
  have hget := Book.requireOrder_ok hw
  obtain ⟨v, hv, hchanged⟩ := h.worked.origin hget
  cases hearly : bar.ts.le w.order.submittedAt with
  | true =>
      simp only [if_true]
      refine ⟨h, by simp, ?_⟩
      intro u hu htouched
      rw [hv] at hu
      cases hu
      have hlater := htouched.2.1
      rw [← hchanged.terms] at hlater
      simp [Ts.le, hlater] at hearly
  | false =>
      simp only [Bool.false_eq_true, if_false]
      have hlater := Ts.lt_of_not_le hearly
      obtain ⟨hinstr, hlive⟩ := h.live id hid w hget
      have hready := hchanged.ready hlive hinstr hlater (h.inForce id w hget hinstr hlive)
      rw [post_bind]
      refine Post.lift (fun r hr => ?_) fun _ _ => h.worked
      obtain ⟨w₁, base⟩ := r
      obtain ⟨t, rfl⟩ := Book.executionBase_amends hr
      rw [post_bind]
      apply Post.modify
      have hnoted := h.note hid hget hlater t
      have htouch : ∀ u, b.orders.get id = some u → StopTouched bar u.order → base.isSome = true := by
        intro u hu htouched
        rw [hv] at hu
        cases hu
        rw [← hchanged.terms] at htouched
        refine executionBase_stop (fun htif => ?_) htouched hr
        have hmarket := h.worked.tidy.opening id w hget htif
        rw [htouched.1] at hmarket
        cases hmarket
      cases base with
      | none => exact ⟨hnoted, by simp, htouch⟩
      | some base =>
          dsimp only
          rw [map_eq_pure_bind, post_bind]
          refine Post.lift (fun p hp => ?_) fun _ _ => hnoted.worked
          refine ⟨hnoted, ?_, fun _ _ _ => rfl⟩
          rintro _ ⟨⟩
          have hprotects := slippedPrice_protects hp (executionBase_protects hr)
          exact ⟨v, hv, hready, by rwa [hchanged.terms] at hprotects⟩

/-- The candidates of a bar are in force and priced within their limits, and a stop the bar reaches is
one of them. -/
theorem candidates_leaves {ids all : List String} (h : Pricing A cal b bar all b₁) (hsub : ∀ id ∈ ids, id ∈ all) :
    Post
      (fun cs b' => Pricing A cal b bar all b' ∧ (∀ c ∈ cs, Eligible cal b bar c) ∧
        (cs.map (·.1)).Sublist ids ∧
        ∀ id ∈ ids, ∀ w, b.orders.get id = some w → StopTouched bar w.order → ∃ p, (id, p) ∈ cs)
      (fun _ b' => Worked A cal b bar [] [] b') (Act.candidates cal bar ids b₁) := by
  induction ids generalizing b₁ with
  | nil => exact ⟨h, by simp, .slnil, by simp⟩
  | cons id ids ih =>
      obtain ⟨hid, hsub⟩ := List.forall_mem_cons.mp hsub
      unfold Act.candidates
      rw [post_bind]
      refine (executionPrice_leaves h hid).weaken (fun price b₂ hstep => ?_) fun _ _ hw => hw
      obtain ⟨h₂, heligible, htouched⟩ := hstep
      rw [post_bind]
      refine (ih h₂ hsub).weaken (fun cs b₃ hrest => ?_) fun _ _ hw => hw
      obtain ⟨h₃, hcs, hids, hstops⟩ := hrest
      refine ⟨h₃, ?_, ?_, ?_⟩
      · intro c hc
        rcases List.mem_append.mp hc with hc | hc
        · cases price with
          | none => cases hc
          | some p =>
              rw [List.mem_singleton.mp hc]
              exact heligible p rfl
        · exact hcs c hc
      · cases price with
        | none => exact hids.cons id
        | some p => exact hids.cons_cons id
      · intro id' hmem w hw hstop
        rcases List.mem_cons.mp hmem with rfl | hmem
        · obtain ⟨p, hp⟩ := Option.isSome_iff_exists.mp (htouched w hw hstop)
          exact ⟨p, List.mem_append_left _ (by simp [hp])⟩
        · obtain ⟨p, hp⟩ := hstops id' hmem w hw hstop
          exact ⟨p, List.mem_append_right _ hp⟩

/-! ## Fills -/

theorem Worked.choose (h : Worked A cal b bar [] [] b₁) : Worked A cal b bar choices [] b₁ :=
  ⟨h.rest, h.tidy, h.absent, h.present, h.fills, by simp, h.counts, h.positions⟩

/-- An order that still works and has not filled is as before, but for its trigger. -/
theorem Changed.unfilled (h : Changed A cal b bar new w w') (hlive : working w'.state = true)
    (hfresh : ∀ f ∈ new, f.orderId ≠ w.order.id) : ∃ t, w' = { w with triggered := t } := by
  cases h with
  | same => exact ⟨w.triggered, rfl⟩
  | lapsed => cases hlive
  | noted _ t => exact ⟨t, rfl⟩
  | filled _ _ hf hid => exact absurd hid (hfresh _ hf)

/-- An order ready at the bar that has not filled in it still works. -/
theorem Changed.working (h : Changed A cal b bar new w w') (hready : Ready cal b bar w)
    (hfresh : ∀ f ∈ new, f.orderId ≠ w.order.id) : Sim.working w'.state = true := by
  cases h with
  | same => exact hready.live
  | lapsed _ _ hexpired =>
      rw [hready.inForce] at hexpired
      cases hexpired
  | noted _ _ => exact hready.live
  | filled _ _ hf hid => exact absurd hid (hfresh _ hf)

/-- A fill, however far it came, of an order chosen for the bar that has not filled in it. -/
theorem Worked.filling {made : Option VFill} {c : String × Money} (hb : b.Tidy)
    (h : Worked A cal b bar choices new b₁) (hc : c ∈ choices) (heligible : Eligible cal b bar c)
    (hfresh : ∀ f ∈ new, f.orderId ≠ c.1) (hget : b₁.orders.get c.1 = some w') (hlive : working w'.state = true)
    (hfill : Filling A c.1 w' c.2 bar.ts made b₁ b₂) : Worked A cal b bar choices (new ++ made.toList) b₂ := by
  obtain ⟨w, hw, hready, -⟩ := heligible
  obtain ⟨v, hv, hchanged⟩ := h.origin hget
  rw [hw] at hv
  cases hv
  have hid := hb.ids _ _ hw
  obtain ⟨t, rfl⟩ := hchanged.unfilled hlive (by rwa [hid])
  have hsub : ∀ f ∈ new, f ∈ new ++ made.toList := fun f hf => List.mem_append_left _ hf
  have hold : ∀ id u, b.orders.get id = some u →
      ∃ u', b₁.orders.get id = some u' ∧ Changed A cal b bar (new ++ made.toList) u u' := by
    intro id u hu
    obtain ⟨u', hu', hch⟩ := h.present id u hu
    exact ⟨u', hu', hch.more hsub⟩
  refine ⟨?_, ?_, ?_, ?_, ?_, ?_, ?_, ?_⟩
  · rw [hfill.rest, h.rest]
  · rcases hfill.order with ho | ⟨_, total, -, -, ho⟩
    · exact ⟨ho ▸ h.tidy.keys, ho ▸ h.tidy.ids, ho ▸ h.tidy.opening⟩
    · have htidy := h.tidy.rewrite hget (show ({ w with triggered := t }.take total bar.ts).order = w.order from rfl)
      exact ⟨ho ▸ htidy.keys, ho ▸ htidy.ids, ho ▸ htidy.opening⟩
  · intro id hnone
    rcases hfill.order with ho | ⟨_, _, -, -, ho⟩
    · rw [ho]
      exact h.absent id hnone
    · rw [ho, OMap.get_put_ne _ _ (by rintro rfl; rw [hw] at hnone; cases hnone)]
      exact h.absent id hnone
  · intro id u hu
    rcases hfill.order with ho | ⟨f, total, hf, htotal, ho⟩
    · rw [ho]
      exact hold id u hu
    · rw [ho]
      by_cases heq : id = c.1
      · subst heq
        rw [hw] at hu
        cases hu
        refine ⟨_, OMap.get_put_self _ _ _, .filled (f := f) hready t ?_ (hfill.facts f hf).1 htotal⟩
        rw [hf]
        simp
      · rw [OMap.get_put_ne _ _ heq]
        exact hold id u hu
  · rw [hfill.fills, h.fills, List.append_assoc]
  · intro f hf
    rcases List.mem_append.mp hf with hf | hf
    · exact h.made f hf
    · obtain ⟨ho, hinstr, hside, hprice, hat⟩ := hfill.facts f (Option.mem_toList.mp hf)
      rw [hid] at ho
      exact ⟨w, ho ▸ hw, hready, hinstr, hside, hat, by rw [ho, hprice]; exact hc⟩
  · intro id
    by_cases heq : id = c.1
    · exact Or.inr ⟨w, heq ▸ hw, hready⟩
    · rw [hfill.counts id heq]
      exact h.counts id
  · intro hk hne
    have hkeeps : made = none ∨ hk ≠ w.order.instr.hk := by
      rcases hne with hnone | hne
      · left
        simpa using (List.append_eq_nil_iff.mp hnone).2
      · right
        rwa [hready.instr]
    rw [hfill.position hk hkeeps]
    refine h.positions hk ?_
    rcases hne with hnone | hne
    · exact Or.inl (List.append_eq_nil_iff.mp hnone).1
    · exact Or.inr hne

/-- The order was filled, or when its turn came, after some of the fills, nothing was left for it to
take. -/
def Taken (A : Arith) (cal : Calendars) (b : Book) (bar : Bar) (new : List VFill) (id : String) : Prop :=
  (∃ f ∈ new, f.orderId = id) ∨
    ∃ before rest choices b₁ w, new = before ++ rest ∧ Worked A cal b bar choices before b₁ ∧
      b₁.orders.get id = some w ∧ NothingToTake A b₁ w

theorem Taken.more (h : Taken A cal b bar new id) (more : List VFill) : Taken A cal b bar (new ++ more) id := by
  rcases h with ⟨f, hf, hid⟩ | ⟨before, rest, choices, b₁, w, rfl, h⟩
  · exact Or.inl ⟨f, List.mem_append_left _ hf, hid⟩
  · exact Or.inr ⟨before, rest ++ more, choices, b₁, w, List.append_assoc _ _ _, h⟩

/-- The turn of a chosen order: a fill of it, or nothing made and nothing left for it to take. -/
theorem Worked.turn {price : Money} {r : Option Nat} (hb : b.Tidy) (h : Worked A cal b bar choices new b₁)
    (hc : (id, price) ∈ choices) (heligible : Eligible cal b bar (id, price)) (hfresh : ∀ f ∈ new, f.orderId ≠ id)
    (hget : b₁.orders.get id = some w')
    (hstep : b₂ = b₁ ∧ r = none ∧ (working w'.state = false ∨ NothingToTake A b₁ w') ∨
      working w'.state = true ∧ ∃ f, Filling A id w' price bar.ts (some f) b₁ b₂) :
    ∃ made : List VFill, Worked A cal b bar choices (new ++ made) b₂ ∧ (∀ f ∈ made, f.orderId = id) ∧
      Taken A cal b bar (new ++ made) id := by
  rcases hstep with ⟨rfl, -, hidle⟩ | ⟨hlive, f, hf⟩
  · refine ⟨[], by rwa [List.append_nil], by simp, ?_⟩
    rw [List.append_nil]
    obtain ⟨w, hw, hchanged⟩ := h.origin hget
    obtain ⟨v, hv, hready, -⟩ := heligible
    rw [hw] at hv
    cases hv
    have hlive := hchanged.working hready (by rwa [hb.ids _ _ hw])
    rcases hidle with hdead | hnothing
    · rw [hlive] at hdead
      cases hdead
    · exact Or.inr ⟨new, [], choices, b₂, w', (List.append_nil _).symm, h, hget, hnothing⟩
  · have hid : f.orderId = id := (hf.facts f rfl).1.trans (h.tidy.ids _ _ hget)
    exact ⟨[f], h.filling hb hc heligible hfresh hget hlive hf, by simpa using hid, Or.inl ⟨f, by simp, hid⟩⟩

theorem fillAll_leaves {cs : List (String × Money)} (hb : b.Tidy) (h : Worked A cal b bar choices new b₁)
    (hcs : ∀ c ∈ cs, c ∈ choices ∧ Eligible cal b bar c) (honce : (cs.map (·.1)).Nodup)
    (hfresh : ∀ f ∈ new, f.orderId ∉ cs.map (·.1)) :
    Post
      (fun _ b' => ∃ more, Worked A cal b bar choices (new ++ more) b' ∧
        ∀ c ∈ cs, Taken A cal b bar (new ++ more) c.1)
      (fun _ b' => ∃ more, Worked A cal b bar choices (new ++ more) b') (Act.fillAll A bar.ts cs b₁) := by
  induction cs generalizing new b₁ with
  | nil => exact ⟨[], by rwa [List.append_nil], by simp⟩
  | cons c cs ih =>
      obtain ⟨id, price⟩ := c
      obtain ⟨⟨hc, heligible⟩, hcs⟩ := List.forall_mem_cons.mp hcs
      obtain ⟨hother, honce⟩ := List.nodup_cons.mp honce
      have hnew : ∀ f ∈ new, f.orderId ≠ id := fun f hf heq => hfresh f hf (heq ▸ List.mem_cons_self)
      have hrest : ∀ f ∈ new, f.orderId ∉ cs.map (·.1) := fun f hf hmem =>
        hfresh f hf (List.mem_cons_of_mem _ hmem)
      unfold Act.fillAll
      rw [post_bind]
      refine (fill_leaves A id price bar.ts b₁).weaken (fun r b₂ hstep => ?_) fun _ b₂ hstep => ?_
      · obtain ⟨w', hget, hstep⟩ := hstep
        obtain ⟨made, hworked, hmade, htaken⟩ := h.turn hb hc heligible hnew hget hstep
        have hmore : ∀ f ∈ new ++ made, f.orderId ∉ cs.map (·.1) := by
          intro f hf
          rcases List.mem_append.mp hf with hf | hf
          · exact hrest f hf
          · rw [hmade f hf]
            exact hother
        rw [post_bind]
        refine (ih hworked hcs honce hmore).weaken (fun out b₃ hrest => ?_) fun _ b₃ hrest => ?_
        · obtain ⟨more, hmore, hall⟩ := hrest
          have hfirst := htaken.more more
          rw [List.append_assoc] at hmore hall hfirst
          refine ⟨made ++ more, hmore, ?_⟩
          intro c hc
          rcases List.mem_cons.mp hc with rfl | hc
          · exact hfirst
          · exact hall c hc
        · obtain ⟨more, hmore⟩ := hrest
          exact ⟨made ++ more, by rwa [List.append_assoc] at hmore⟩
      · rcases hstep with rfl | ⟨w', made, hget, hlive, hfill⟩
        · exact ⟨[], by rwa [List.append_nil]⟩
        · exact ⟨made.toList, h.filling hb hc heligible hnew hget hlive hfill⟩

/-! ## Groups -/

/-- The group an order of the book belongs to. -/
def Book.groupOf (b : Book) (c : String × Money) : Option String := (b.orders.get c.1).bind (·.order.oco)

theorem mem_selected {c : String × Money} (h : c ∈ b.selected choices) : c ∈ choices := by
  unfold Book.selected at h
  have hkeyed : ∀ x ∈ (choices.filterMap fun c => (b.orders.get c.1).map fun w => (w.order, c)).insertionSort
      (fun x y => (ocoPriority x.1).le (ocoPriority y.1) = true), x.2 ∈ choices := by
    intro x hx
    rw [List.mem_insertionSort, List.mem_filterMap] at hx
    obtain ⟨c, hc, hx⟩ := hx
    obtain ⟨w, -, rfl⟩ := Option.map_eq_some_iff.mp hx
    exact hc
  dsimp only at h
  split at h
  · next s hs =>
      rw [List.mem_singleton.mp h]
      exact hkeyed s (List.mem_of_find?_eq_some hs)
  · obtain ⟨x, hx, rfl⟩ := List.mem_map.mp h
    exact hkeyed x hx

theorem schedule_eq (b : Book) (choices : List (String × Money)) : b.schedule choices =
    choices.filter (fun c => b.groupOf c = none) ++
      (((choices.filterMap b.groupOf).dedup).insertionSort fun x y => (compare x y != .gt) = true).flatMap
        fun g => b.selected (choices.filter fun c => b.groupOf c = some g) := rfl

theorem mem_schedule {c : String × Money} (h : c ∈ b.schedule choices) : c ∈ choices := by
  rw [schedule_eq] at h
  rcases List.mem_append.mp h with h | h
  · exact List.mem_of_mem_filter h
  · obtain ⟨g, -, h⟩ := List.mem_flatMap.mp h
    exact List.mem_of_mem_filter (mem_selected h)

/-- Of each candidate at most one is selected. -/
theorem selected_nodup (h : (choices.map (·.1)).Nodup) : ((b.selected choices).map (·.1)).Nodup := by
  unfold Book.selected
  dsimp only
  split
  · exact List.nodup_singleton _
  · rw [List.map_map]
    refine ((List.perm_insertionSort _ _).map _).nodup_iff.mpr ?_
    rw [List.Nodup, List.pairwise_map] at h ⊢
    rw [List.pairwise_filterMap]
    refine h.imp fun hne x hx y hy => ?_
    obtain ⟨_, -, rfl⟩ := Option.map_eq_some_iff.mp hx
    obtain ⟨_, -, rfl⟩ := Option.map_eq_some_iff.mp hy
    exact hne

/-- With a stop among the candidates of a group, one stop is all that is selected. -/
theorem selected_stop {c : String × Money} {w : Working} (hc : c ∈ choices) (hw : b.orders.get c.1 = some w)
    (hstop : w.order.otype = .stop) :
    ∃ s v, b.selected choices = [s] ∧ s ∈ choices ∧ b.orders.get s.1 = some v ∧ v.order.otype = .stop := by
  unfold Book.selected
  dsimp only
  split
  · next s hs =>
      have hmem := List.mem_of_find?_eq_some hs
      rw [List.mem_insertionSort, List.mem_filterMap] at hmem
      obtain ⟨d, hd, hs'⟩ := hmem
      obtain ⟨v, hv, rfl⟩ := Option.map_eq_some_iff.mp hs'
      exact ⟨d, v, rfl, hd, hv, by simpa using List.find?_some hs⟩
  · next hnone =>
      have hkeyed : (w.order, c) ∈ choices.filterMap fun c => (b.orders.get c.1).map fun w => (w.order, c) :=
        List.mem_filterMap.mpr ⟨c, hc, by rw [hw]; rfl⟩
      have hfail := List.find?_eq_none.mp hnone _ ((List.mem_insertionSort _).mpr hkeyed)
      simp [hstop] at hfail

/-- Every order is scheduled at most once. -/
theorem schedule_nodup (h : (choices.map (·.1)).Nodup) : ((b.schedule choices).map (·.1)).Nodup := by
  have hpart : ∀ p : String × Money → Bool, ((choices.filter p).map (·.1)).Nodup :=
    fun p => h.sublist (List.filter_sublist.map _)
  have hgroup : ∀ g, ∀ id ∈ (b.selected (choices.filter fun c => b.groupOf c = some g)).map (·.1),
      ∀ p, b.groupOf (id, p) = some g := by
    intro g id hid p
    obtain ⟨c, hc, rfl⟩ := List.mem_map.mp hid
    exact of_decide_eq_true (List.mem_filter.mp (mem_selected hc)).2
  rw [schedule_eq, List.map_append, List.map_flatMap, List.nodup_append']
  refine ⟨hpart _, List.nodup_flatMap.mpr ⟨fun g _ => selected_nodup (hpart _), ?_⟩, ?_⟩
  · have hgroups := (List.perm_insertionSort (fun x y => (compare x y != .gt) = true)
      ((choices.filterMap b.groupOf).dedup)).nodup_iff.mpr (List.nodup_dedup _)
    refine hgroups.imp fun {g g'} hne id hid hid' => hne ?_
    exact Option.some.inj ((hgroup g id hid .zero).symm.trans (hgroup g' id hid' .zero))
  · intro id hid hid'
    obtain ⟨c, hc, rfl⟩ := List.mem_map.mp hid
    obtain ⟨g, -, hmem⟩ := List.mem_flatMap.mp hid'
    have hnone : b.groupOf c = none := of_decide_eq_true (List.mem_filter.mp hc).2
    have hsome := hgroup g c.1 hmem c.2
    rw [hnone] at hsome
    cases hsome

/-- With a stop of a group among the candidates, one order of the group is scheduled, and it is a stop. -/
theorem schedule_stop {c : String × Money} {w : Working} {g : String} (hc : c ∈ choices)
    (hw : b.orders.get c.1 = some w) (hstop : w.order.otype = .stop) (hg : w.order.oco = some g) :
    ∃ s v, s ∈ b.schedule choices ∧ b.orders.get s.1 = some v ∧ v.order.otype = .stop ∧
      v.order.oco = some g ∧ ∀ d ∈ b.schedule choices, b.groupOf d = some g → d = s := by
  have hgroup : b.groupOf c = some g := by rw [Book.groupOf, hw]; exact hg
  have hmem : c ∈ choices.filter fun d => b.groupOf d = some g := List.mem_filter.mpr ⟨hc, decide_eq_true hgroup⟩
  obtain ⟨s, v, hsel, hs, hv, hvstop⟩ := selected_stop hmem hw hstop
  have hsg : b.groupOf s = some g := of_decide_eq_true (List.mem_filter.mp hs).2
  rw [schedule_eq]
  refine ⟨s, v, ?_, hv, hvstop, ?_, ?_⟩
  · refine List.mem_append_right _ (List.mem_flatMap.mpr ⟨g, ?_, ?_⟩)
    · rw [List.mem_insertionSort, List.mem_dedup, List.mem_filterMap]
      exact ⟨c, hc, hgroup⟩
    · exact hsel.symm ▸ List.mem_singleton_self s
  · rw [Book.groupOf, hv] at hsg
    exact hsg
  · intro d hd hdg
    rcases List.mem_append.mp hd with hd | hd
    · have hnone : b.groupOf d = none := of_decide_eq_true (List.mem_filter.mp hd).2
      rw [hdg] at hnone
      cases hnone
    · obtain ⟨g', -, hd⟩ := List.mem_flatMap.mp hd
      have hdg' : b.groupOf d = some g' := of_decide_eq_true (List.mem_filter.mp (mem_selected hd)).2
      rw [hdg] at hdg'
      cases hdg'
      rw [hsel] at hd
      exact List.mem_singleton.mp hd

/-! ## The bar -/

/-- A stop of a group that the bar can fill. -/
structure StopInReach (cal : Calendars) (b : Book) (bar : Bar) (g : String) (w : Working) : Prop where
  ready : Ready cal b bar w
  unfilled : w.filled.lt w.order.quantity = true
  touched : StopTouched bar w.order
  group : w.order.oco = some g

/-- Of a group, the stop `s` alone is among the fills. -/
def StopWins (b : Book) (new : List VFill) (g s : String) : Prop :=
  (∃ v, b.orders.get s = some v ∧ v.order.otype = .stop ∧ v.order.oco = some g) ∧
    ∀ f ∈ new, ∀ u, b.orders.get f.orderId = some u → u.order.oco = some g → f.orderId = s

/-- What a bar has done to the book, carried through or cut off. -/
structure Matched (A : Arith) (cal : Calendars) (b : Book) (bar : Bar) (new : List VFill) (b' : Book) : Prop where
  worked : ∃ choices, Worked A cal b bar choices new b' ∧ ∀ c ∈ choices, Eligible cal b bar c
  stops : ∀ id w g, b.orders.get id = some w → StopInReach cal b bar g w → ∃ s, StopWins b new g s

theorem Worked.cutOff (h : Worked A cal b bar [] [] b₁) : Matched A cal b bar [] b₁ where
  worked := ⟨[], h, by simp⟩
  stops id w g hw hstop := ⟨id, ⟨w, hw, hstop.touched.1, hstop.group⟩, by simp⟩

theorem Worked.groupOf (h : Worked A cal b bar choices new b₁) (c : String × Money) :
    b₁.groupOf c = b.groupOf c := by
  unfold Book.groupOf
  cases hw : b.orders.get c.1 with
  | none => rw [h.absent _ hw]
  | some w =>
      obtain ⟨w', hw', hchanged⟩ := h.present _ w hw
      rw [hw']
      exact congrArg VOrder.oco hchanged.terms

section
variable (h : Swept (Lapses cal b bar) (Lasts cal b bar) b b.orderIds b₁)
include h

theorem Swept.pricing (hb : b.Tidy) :
    Pricing A cal b bar (b₁.orderIds.filter (b₁.active bar)) b₁ := by
  refine ⟨h.worked A, ?_, ?_⟩
  · intro id w hw hinstr hlive
    obtain ⟨v, hv, -⟩ := (h.worked A).origin hw
    exact h.seen id (Book.mem_orderIds hb hv) w hw hinstr hlive
  · intro id hid w hw
    have hactive := (List.mem_filter.mp hid).2
    rw [Book.active, hw] at hactive
    simp only [Bool.and_eq_true, decide_eq_true_eq] at hactive
    exact hactive.1

/-- A stop in reach is still there, and active, once the bar has lapsed what it lapses. -/
theorem Swept.stop_active {g : String} (hw : b.orders.get id = some w)
    (hstop : StopInReach cal b bar g w) : id ∈ b₁.orderIds.filter (b₁.active bar) := by
  obtain ⟨w', hw', -, rfl | hlapses⟩ := h.present id w hw
  · refine List.mem_filter.mpr ⟨Book.mem_orderIds h.tidy hw', ?_⟩
    rw [Book.active, hw']
    simp only [hstop.ready.instr, hstop.ready.live, hstop.unfilled, decide_true, Bool.and_self]
  · have hexpired := hlapses.2.2.1
    rw [hstop.ready.inForce] at hexpired
    cases hexpired

end

/-- Of the orders a bar is scheduled to fill, those of a group with a stop in reach are one stop. -/
theorem scheduled_stop {g : String} (h : Worked A cal b bar [] [] b₁) (hw : b.orders.get id = some w)
    (hstop : StopInReach cal b bar g w) {p : Money} (hc : (id, p) ∈ choices) :
    ∃ s, s ∈ (b₁.schedule choices).map (·.1) ∧
      (∃ v, b.orders.get s = some v ∧ v.order.otype = .stop ∧ v.order.oco = some g) ∧
      ∀ d ∈ b₁.schedule choices, b.groupOf d = some g → d.1 = s := by
  obtain ⟨w', hw', hchanged⟩ := h.present id w hw
  obtain ⟨s, v', hs, hv', htype, hgroup, hone⟩ := schedule_stop hc hw' (by rw [hchanged.terms]; exact hstop.touched.1)
    (by rw [hchanged.terms]; exact hstop.group)
  obtain ⟨v, hv, hvchanged⟩ := h.origin hv'
  rw [hvchanged.terms] at htype hgroup
  refine ⟨s.1, List.mem_map_of_mem hs, ⟨v, hv, htype, hgroup⟩, ?_⟩
  intro d hd hdg
  rw [← h.groupOf] at hdg
  rw [hone d hd hdg]

theorem matchBar_leaves (hb : b.Tidy) :
    Post
      (fun _ b' => ∃ new b₁, Matched A cal b bar new b₁ ∧
        b' = { b₁ with lastBars := b₁.lastBars.insert bar.instr.hk bar.instr bar } ∧
        (b.isRegularSessionBar cal bar = .ok true → ∀ id w g, b.orders.get id = some w →
          StopInReach cal b bar g w → ∃ s, StopWins b new g s ∧ Taken A cal b bar new s))
      (fun _ b' => ∃ new, Matched A cal b bar new b') (Act.matchBar A cal bar b) := by
  unfold Act.matchBar
  rw [post_bind]
  apply Post.gets
  rw [post_bind]
  refine (expiry_leaves hb).weaken (fun _ b₁ hlapsed => ?_) fun _ b₁ hworked => ⟨[], hworked.cutOff⟩
  rw [post_bind]
  refine Post.lift (fun regular hregular => ?_) fun _ _ => ⟨[], (hlapsed.worked A).cutOff⟩
  have hregular : b.isRegularSessionBar cal bar = .ok regular :=
    (Book.isRegularSessionBar_congr (hlapsed.worked A).venue).symm.trans hregular
  cases regular with
  | false =>
      refine ⟨[], b₁, (hlapsed.worked A).cutOff, rfl, ?_⟩
      rw [hregular]
      nofun
  | true =>
      simp only [Bool.not_true, Bool.false_eq_true, if_false]
      rw [post_bind]
      apply Post.gets
      rw [post_bind]
      refine (candidates_leaves (hlapsed.pricing hb) fun _ h => h).weaken (fun cs b₂ hpriced => ?_)
        fun _ b₂ hworked => ⟨[], hworked.cutOff⟩
      obtain ⟨hpricing, heligible, hids, htouched⟩ := hpriced
      rw [post_bind]
      apply Post.gets
      rw [post_bind]
      -- the stop that each group with a stop in reach is left with
      have hstops : ∀ id w g, b.orders.get id = some w → StopInReach cal b bar g w →
          ∃ s, s ∈ (b₂.schedule cs).map (·.1) ∧
            (∃ v, b.orders.get s = some v ∧ v.order.otype = .stop ∧ v.order.oco = some g) ∧
            ∀ d ∈ b₂.schedule cs, b.groupOf d = some g → d.1 = s := by
        intro id w g hw hstop
        obtain ⟨p, hp⟩ := htouched id (hlapsed.stop_active hw hstop) w hw hstop.touched
        exact scheduled_stop hpricing.worked hw hstop hp
      have hscheduled : ∀ c ∈ b₂.schedule cs, c ∈ b₂.schedule cs ∧ Eligible cal b bar c :=
        fun c hc => ⟨hc, heligible c (mem_schedule hc)⟩
      have hwins : ∀ new b₃, Worked A cal b bar (b₂.schedule cs) new b₃ → ∀ g s,
          (∀ d ∈ b₂.schedule cs, b.groupOf d = some g → d.1 = s) → ∀ f ∈ new, ∀ u,
            b.orders.get f.orderId = some u → u.order.oco = some g → f.orderId = s := by
        intro new b₃ hworked g s hone f hf u hu hg
        obtain ⟨_, -, -, -, -, -, hmem⟩ := hworked.made f hf
        exact hone _ hmem (by rw [Book.groupOf, hu]; exact hg)
      have honce : ((b₂.schedule cs).map (·.1)).Nodup :=
        schedule_nodup (((Book.orderIds_nodup hlapsed.tidy).filter _).sublist hids)
      refine (fillAll_leaves (A := A) hb (hpricing.worked.choose) hscheduled honce (by simp)).weaken (fun out b₃ hfilled => ?_)
        fun _ b₃ hfilled => ?_
      · obtain ⟨new, hworked, htaken⟩ := hfilled
        rw [List.nil_append] at hworked htaken
        refine ⟨new, b₃, ⟨⟨_, hworked, fun c hc => (hscheduled c hc).2⟩, ?_⟩, rfl, ?_⟩
        · intro id w g hw hstop
          obtain ⟨s, -, hv, hone⟩ := hstops id w g hw hstop
          exact ⟨s, hv, hwins new b₃ hworked g s hone⟩
        · intro _ id w g hw hstop
          obtain ⟨s, hs, hv, hone⟩ := hstops id w g hw hstop
          obtain ⟨c, hc, rfl⟩ := List.mem_map.mp hs
          exact ⟨c.1, ⟨hv, hwins new b₃ hworked g c.1 hone⟩, htaken c hc⟩
      · obtain ⟨new, hworked⟩ := hfilled
        rw [List.nil_append] at hworked
        refine ⟨new, ⟨_, hworked, fun c hc => (hscheduled c hc).2⟩, ?_⟩
        intro id w g hw hstop
        obtain ⟨s, -, hv, hone⟩ := hstops id w g hw hstop
        exact ⟨s, hv, hwins new b₃ hworked g s hone⟩

/-! ## Where a bar is cut off -/

/-- A bar is refused while it is matched: the parts of the step before the refused one have been carried
through, one after the other, and none comes after it. -/
inductive CutOff (A : Arith) (cal : Calendars) (b : Book) (bar : Bar) (e : LErr) (b' : Book) : Prop
  | lapsing {before after : List String} {id : String} (orders : b.orderIds = before ++ id :: after)
      (done : forEach (fun id => change (Book.expireAt cal bar · id)) before b = (.ok (), b'))
      (refused : b'.expireAt cal bar id = .error e)
  | session (done : forEach (fun id => change (Book.expireAt cal bar · id)) b.orderIds b = (.ok (), b'))
      (refused : b'.isRegularSessionBar cal bar = .error e)
  | pricing {b₁ b₂ : Book} {before after : List String} {id : String} {choices : List (String × Money)}
      (lapsed : forEach (fun id => change (Book.expireAt cal bar · id)) b.orderIds b = (.ok (), b₁))
      (orders : b₁.orderIds.filter (b₁.active bar) = before ++ id :: after)
      (done : Act.candidates cal bar before b₁ = (.ok choices, b₂))
      (refused : Act.executionPrice cal bar id b₂ = (.error e, b'))
  | filling {b₁ b₂ b₃ : Book} {choices before after : List (String × Money)} {id : String} {price : Money}
      {out : List Nat}
      (lapsed : forEach (fun id => change (Book.expireAt cal bar · id)) b.orderIds b = (.ok (), b₁))
      (priced : Act.candidates cal bar (b₁.orderIds.filter (b₁.active bar)) b₁ = (.ok choices, b₂))
      (orders : b₂.schedule choices = before ++ (id, price) :: after)
      (done : Act.fillAll A bar.ts before b₂ = (.ok out, b₃))
      (refused : Act.fill A id price bar.ts b₃ = (.error e, b'))

theorem matchBar_cutOff {e : LErr} {b' : Book} (h : Act.matchBar A cal bar b = (.error e, b')) :
    CutOff A cal b bar e b' := by
  unfold Act.matchBar at h
  rw [bind_error] at h
  rcases h with h | ⟨_, _, hids, h⟩
  · cases h
  cases hids
  rw [bind_error] at h
  rcases h with h | ⟨_, b₁, hlapsed, h⟩
  · obtain ⟨before, id, after, b₁, hids, hdone, hstop⟩ := forEach_stopped h
    obtain ⟨hrefused, rfl⟩ := change_error hstop
    exact .lapsing hids hdone hrefused
  rw [bind_error] at h
  rcases h with h | ⟨regular, _, hregular, h⟩
  · obtain ⟨hrefused, rfl⟩ := Prod.mk.inj h
    exact .session hlapsed hrefused
  obtain ⟨-, rfl⟩ := Prod.mk.inj hregular
  split at h
  · rw [bind_error] at h
    rcases h with h | ⟨_, _, -, h⟩ <;> cases h
  rw [bind_error] at h
  rcases h with h | ⟨_, _, hactive, h⟩
  · cases h
  cases hactive
  rw [bind_error] at h
  rcases h with h | ⟨choices, b₂, hpriced, h⟩
  · obtain ⟨before, id, after, choices, b₂, hids, hdone, hstop⟩ :=
      stopped_at (Act.executionPrice cal bar) (Act.candidates cal bar)
        (fun id price rest => (price.map fun p => (id, p)).toList ++ rest) rfl (fun _ _ => rfl) h
    exact .pricing hlapsed hids hdone hstop
  rw [bind_error] at h
  rcases h with h | ⟨_, _, hschedule, h⟩
  · cases h
  cases hschedule
  rw [bind_error] at h
  rcases h with h | ⟨_, _, -, h⟩
  · obtain ⟨before, c, after, out, b₃, hids, hdone, hstop⟩ :=
      stopped_at (fun c => Act.fill A c.1 c.2 bar.ts) (Act.fillAll A bar.ts)
        (fun _ at' rest => at'.toList ++ rest) rfl (fun _ _ => rfl) h
    exact .filling hlapsed hpriced hids hdone hstop
  · rw [bind_error] at h
    rcases h with h | ⟨_, _, -, h⟩ <;> cases h

theorem processBar_cutOff {bar? : Option Bar} {e : LErr} {b' : Book}
    (h : Act.processBar A cal bar? b = (.error e, b')) :
    Act.openBar cal b bar? = .error e ∧ b' = b ∨
      ∃ bar, Act.openBar cal b bar? = .ok (some bar) ∧ CutOff A cal b bar e b' := by
  unfold Act.processBar at h
  rw [bind_error] at h
  rcases h with h | ⟨opened, _, hopened, h⟩
  · obtain ⟨hrefused, rfl⟩ := Prod.mk.inj h
    exact Or.inl ⟨hrefused, rfl⟩
  obtain ⟨hopen, rfl⟩ := Prod.mk.inj hopened
  cases opened with
  | none => cases h
  | some bar => exact Or.inr ⟨bar, hopen, matchBar_cutOff h⟩

theorem processBar_leaves (hb : b.Tidy) (bar? : Option Bar) :
    Post
      (fun _ b' => Act.openBar cal b bar? = .ok none ∧ b' = b ∨
        ∃ bar new b₁, Act.openBar cal b bar? = .ok (some bar) ∧ Matched A cal b bar new b₁ ∧
          b' = { b₁ with lastBars := b₁.lastBars.insert bar.instr.hk bar.instr bar } ∧
          (b.isRegularSessionBar cal bar = .ok true → ∀ id w g, b.orders.get id = some w →
            StopInReach cal b bar g w → ∃ s, StopWins b new g s ∧ Taken A cal b bar new s))
      (fun e b' => Act.openBar cal b bar? = .error e ∧ b' = b ∨
        ∃ bar new, Act.openBar cal b bar? = .ok (some bar) ∧ Matched A cal b bar new b')
      (Act.processBar A cal bar? b) := by
  unfold Act.processBar
  rw [post_bind]
  refine Post.lift (fun opened hopened => ?_) fun e he => Or.inl ⟨he, rfl⟩
  cases opened with
  | none => exact Or.inl ⟨hopened, rfl⟩
  | some bar =>
      refine (matchBar_leaves hb).weaken (fun _ b' h => ?_) fun _ b' h => ?_
      · obtain ⟨new, b₁, hmatched, heq, hstops⟩ := h
        exact Or.inr ⟨bar, new, b₁, hopened, hmatched, heq, hstops⟩
      · obtain ⟨new, hmatched⟩ := h
        exact Or.inr ⟨bar, new, hopened, hmatched⟩

end TradeEngine.Sim
