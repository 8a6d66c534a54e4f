import TradeEngine.Sim.Lemmas.Bars

/-!
# What a call leaves behind

A call that reads the clock first lapses what is due, then does its own work. Whatever it does, orders
that have ended stay as they ended, and the fills it makes keep to their limits.
-/

namespace TradeEngine.Sim

open Lib Lib.Prog

variable {A : Arith} {cal : Calendars} {b b₁ b₂ : Book} {bar : Bar} {id : String} {w w' : Working} {now : Ts}

/-! ## The clock -/

/-- An order the clock lapses. -/
def Due (cal : Calendars) (b : Book) (now : Ts) (w w' : Working) : Prop :=
  working w.state = true ∧ b.hasExpired cal w.order now = .ok true ∧
    ∃ instant, w' = { w with state := .expired, updatedAt := instant }

/-- The instant of the last bar an order could trade in. -/
def lastChance (o : VOrder) (instant : Ts) : R Ts :=
  if o.tif = .opg then pure instant else instant.addSeconds (-60)

/-- What still works is in force, or its last bar is still to come. -/
def Waits (cal : Calendars) (b : Book) (now : Ts) (w : Working) : Prop :=
  working w.state = true → b.hasExpired cal w.order now = .ok false ∨
    ∃ instant last, b.expiryInstant cal w.order = .ok (some instant) ∧ lastChance w.order instant = .ok last ∧
      ∀ bar, b.lastBars.get w.order.instr.hk = some bar → bar.ts.lt last = true

theorem Book.expiryInstant_congr (h : b₁.venue = b.venue) (o : VOrder) :
    b₁.expiryInstant cal o = b.expiryInstant cal o := by
  simp only [Book.expiryInstant, Book.opgSessionOpen, h]

theorem expireOne_cases (hvenue : b₁.venue = b.venue) (hbars : b₁.lastBars = b.lastBars)
    (hget : b₁.orders.get id = some w) (hstep : Book.expireOne cal now b₁ id = .ok b₂) :
    b₂ = b₁ ∧ Waits cal b now w ∨ ∃ w', b₂ = b₁.setOrder id w' ∧ w'.order = w.order ∧
      Due cal b now w w' ∧ Waits cal b now w' := by
  simp only [Book.expireOne, bind_eq_ok] at hstep
  obtain ⟨v, hv, hstep⟩ := hstep
  rw [Book.requireOrder_ok hv] at hget
  cases hget
  cases hlive : working w.state with
  | false =>
      rw [hlive] at hstep
      cases hstep
      exact Or.inl ⟨rfl, fun hworks => absurd hworks (by rw [hlive]; simp)⟩
  | true =>
      rw [hlive] at hstep
      obtain ⟨expired, hexpired, hstep⟩ := bind_eq_ok.mp hstep
      rw [Book.hasExpired_congr hvenue] at hexpired
      cases expired with
      | false =>
          cases hstep
          exact Or.inl ⟨rfl, fun _ => Or.inl hexpired⟩
      | true =>
          obtain ⟨instant, hinstant, hstep⟩ := bind_eq_ok.mp hstep
          rw [Book.expiryInstant_congr hvenue] at hinstant
          cases instant with
          | none => simp [err] at hstep
          | some instant =>
              obtain ⟨last, hlast, hstep⟩ := bind_eq_ok.mp hstep
              rw [hbars] at hstep
              cases hbar : b.lastBars.get w.order.instr.hk with
              | none =>
                  rw [hbar] at hstep
                  cases hstep
                  exact Or.inl ⟨rfl, fun _ => Or.inr ⟨instant, last, hinstant, hlast, by simp [hbar]⟩⟩
              | some bar =>
                  rw [hbar] at hstep
                  dsimp only at hstep
                  cases hearly : bar.ts.lt last with
                  | true =>
                      rw [hearly] at hstep
                      cases hstep
                      refine Or.inl ⟨rfl, fun _ => Or.inr ⟨instant, last, hinstant, hlast, ?_⟩⟩
                      rintro _ hsame
                      rw [hbar] at hsame
                      cases hsame
                      exact hearly
                  | false =>
                      rw [hearly] at hstep
                      cases hstep
                      exact Or.inr ⟨_, rfl, rfl, ⟨hlive, hexpired, instant, rfl⟩, fun hworks => by cases hworks⟩

/-- The clock has gone through the orders. -/
def Lapsed (cal : Calendars) (b : Book) (now : Ts) (b' : Book) : Prop :=
  Swept (Due cal b now) (Waits cal b now) b b.orderIds b'

theorem expireDue_leaves (hb : b.Tidy) (clock : R Ts) :
    Post (fun _ b' => ∃ now, clock = .ok now ∧ Lapsed cal b now b')
      (fun _ b' => b' = b ∨ ∃ now done, Swept (Due cal b now) (Waits cal b now) b done b')
      (Act.expireDue cal clock b) := by
  unfold Act.expireDue
  rw [post_bind]
  refine Post.lift (fun now hnow => ?_) fun _ _ => Or.inl rfl
  rw [post_bind]
  apply Post.gets
  refine (sweep_leaves hb (C := Due cal b now) (D := Waits cal b now) (fun b₁ b₂ id w hrest hget hstep => ?_)
    fun _ _ _ hstep => ?_).weaken (fun _ _ h => ⟨now, hnow, h⟩) fun _ _ ⟨done, h⟩ => Or.inr ⟨now, done, h⟩
  · exact expireOne_cases (by rw [hrest]) (by rw [hrest]) hget hstep
  · exact requireOrder_of_bind hstep

/-! ## What a call does to the book -/

/-- A stop that fills on the bar its entry filled on. -/
def InsideEntryBar (b : Book) (o : VOrder) (f : VFill) : Prop :=
  o.otype = .stop ∧ ∃ e ∈ b.fills, o.parent = some e.orderId ∧ e.filledAt.eq f.filledAt = true

/-- A fill within its limit, on a bar after the order's submission unless it is inside the bar of the
entry. -/
def Made (b : Book) (f : VFill) : Prop :=
  ∃ w, b.orders.get f.orderId = some w ∧ w.order.Protects f.price ∧
    (w.order.submittedAt.lt f.filledAt = true ∨ InsideEntryBar b w.order f)

/-- Expired orders stay as they are, and fills are made. -/
structure Carried (b b' : Book) : Prop where
  tidy : b'.Tidy
  expired : ∀ id w, b.orders.get id = some w → w.state = .expired → b'.orders.get id = some w
  fills : ∃ new, b'.fills = b.fills ++ new ∧ ∀ f ∈ new, Made b' f

theorem Carried.refl (hb : b.Tidy) : Carried b b :=
  ⟨hb, fun _ _ h _ => h, [], (List.append_nil _).symm, by simp⟩

/-- One order written that has not expired. -/
theorem Carried.write (htidy : (b.setOrder id w').Tidy)
    (hopen : ∀ w, b.orders.get id = some w → w.state ≠ .expired) : Carried b (b.setOrder id w') := by
  refine ⟨htidy, fun id' w hw hexpired => ?_, [], (List.append_nil _).symm, by simp⟩
  rw [Book.get_setOrder]
  split
  · next heq =>
      subst heq
      exact absurd hexpired (hopen w hw)
  · exact hw

theorem Carried.reads {α : Type} {f : Book → R α} (h : Carried b b₁) :
    Post (fun _ => Carried b) (fun _ => Carried b) (read f b₁) :=
  Post.lift (fun _ _ => h) fun _ _ => h

theorem Carried.after (h₁ : Carried b b₁) (hquiet : b₁.fills = b.fills) (h : Carried b₁ b₂) : Carried b b₂ where
  tidy := h.tidy
  expired id w hw hx := h.expired id w (h₁.expired id w hw hx) hx
  fills := hquiet ▸ h.fills

/-- A stop submitted inside the bar of its entry. -/
theorem stopInsideEntryBar_some {price : Money} (h : Act.stopInsideEntryBar cal b id = .ok (some (price, bar))) :
    ∃ w e, b.orders.get id = some w ∧ w.order.otype = .stop ∧ e ∈ b.fills ∧
      w.order.parent = some e.orderId ∧ e.filledAt.eq bar.ts = true := by
  simp only [Act.stopInsideEntryBar, bind_eq_ok] at h
  obtain ⟨w, hw, h⟩ := h
  cases hparent : w.order.parent with
  | none => simp [hparent] at h
  | some parent =>
      cases hbar : b.lastBars.get w.order.instr.hk with
      | none => simp [hparent, hbar] at h
      | some last =>
          simp only [hparent, hbar] at h
          split at h
          · simp at h
          · next hstop =>
              obtain ⟨regular, -, h⟩ := bind_eq_ok.mp h
              split at h
              · simp at h
              · split at h
                · next entryPrice stop hentry hstopPrice =>
                    obtain ⟨e, hlast, -⟩ := Option.map_eq_some_iff.mp hentry
                    have he := List.mem_filter.mp (List.mem_of_getLast? hlast)
                    have hfill : e.orderId = parent ∧ e.filledAt.eq last.ts = true := of_decide_eq_true he.2
                    split at h
                    · simp at h
                    · simp only [bind_eq_ok, pure_eq_ok, Option.some.injEq, Prod.mk.injEq] at h
                      obtain ⟨_, -, -, rfl⟩ := h
                      exact ⟨w, e, Book.requireOrder_ok hw, not_not.mp hstop, he.1, hfill.1 ▸ hparent, hfill.2⟩
                · simp at h

/-- A fill, however far it came, of an order that has not expired. -/
theorem Filling.carried {price : Money} {at' : Ts} {made : Option VFill} (hb : b.Tidy)
    (hw : b.orders.get id = some w) (hlive : w.state ≠ .expired) (h : Filling A id w price at' made b b₁)
    (hmade : ∀ f, made = some f → ∀ w', b₁.orders.get id = some w' → w'.order = w.order →
      f.filledAt = at' → w'.order.Protects f.price ∧
        (w'.order.submittedAt.lt f.filledAt = true ∨ InsideEntryBar b₁ w'.order f)) : Carried b b₁ := by
  have hafter : ∃ w', b₁.orders.get id = some w' ∧ w'.order = w.order := by
    rcases h.order with ho | ⟨_, total, -, -, ho⟩
    · exact ⟨w, by rw [ho, hw], rfl⟩
    · exact ⟨w.take total at', by rw [ho, OMap.get_put_self], rfl⟩
  refine ⟨?_, ?_, made.toList, h.fills, ?_⟩
  · rcases h.order with ho | ⟨_, total, -, -, ho⟩
    · exact ⟨ho ▸ hb.keys, ho ▸ hb.ids, ho ▸ hb.opening⟩
    · have htidy : (b.setOrder id (w.take total at')).Tidy := hb.rewrite hw rfl
      exact ⟨ho ▸ htidy.keys, ho ▸ htidy.ids, ho ▸ htidy.opening⟩
  · intro id' v hv hexpired
    rcases h.order with ho | ⟨_, _, -, -, ho⟩
    · rwa [ho]
    · have hne : id' ≠ id := by
        rintro rfl
        rw [hw] at hv
        cases hv
        exact hlive hexpired
      rwa [ho, OMap.get_put_ne _ _ hne]
  · intro f hf
    have hsome := Option.mem_toList.mp hf
    obtain ⟨horder, -, -, -, hat⟩ := h.facts f hsome
    obtain ⟨w', hw', hsame⟩ := hafter
    rw [hb.ids id w hw] at horder
    exact ⟨w', horder ▸ hw', hmade f hsome w' hw' hsame hat⟩

theorem working_ne_expired {s : OrderState} (h : working s = true) : s ≠ .expired := by
  rintro rfl
  cases h

theorem VOrder.Protects.of_stop {o : VOrder} (h : o.otype = .stop) (price : Money) : o.Protects price := by
  intro htype
  rw [h] at htype
  rcases htype with ht | ht <;> cases ht

theorem fillStopInsideEntryBar_leaves (hb : b.Tidy) :
    Post (fun _ => Carried b) (fun _ => Carried b) (Act.fillStopInsideEntryBar A cal id b) := by
  unfold Act.fillStopInsideEntryBar
  rw [post_bind]
  refine Post.lift (fun found hfound => ?_) fun _ _ => .refl hb
  cases found with
  | none => exact .refl hb
  | some found =>
      obtain ⟨price, bar⟩ := found
      obtain ⟨w, e, hw, hstop, he, hparent, hat⟩ := stopInsideEntryBar_some hfound
      have hcarried : ∀ made b₁, working w.state = true → Filling A id w price bar.ts made b b₁ → Carried b b₁ := by
        intro made b₁ hlive hfill
        refine hfill.carried hb hw (working_ne_expired hlive) ?_
        intro f _ w' _ hsame hfilled
        rw [hsame, hfilled]
        refine ⟨.of_stop hstop _, Or.inr ⟨hstop, e, ?_, hparent, hfilled ▸ hat⟩⟩
        rw [hfill.fills]
        exact List.mem_append_left _ he
      dsimp only
      rw [post_discard]
      refine (fill_leaves A id price bar.ts b).weaken (fun r b₁ h => ?_) fun _ b₁ h => ?_
      · obtain ⟨v, hv, h⟩ := h
        rw [hw] at hv
        cases hv
        rcases h with ⟨rfl, -, -⟩ | ⟨hlive, f, hfill⟩
        · exact .refl hb
        · exact hcarried (some f) b₁ hlive hfill
      · rcases h with rfl | ⟨v, made, hv, hlive, hfill⟩
        · exact .refl hb
        · rw [hw] at hv
          cases hv
          exact hcarried made b₁ hlive hfill

/-! ## The calls -/

theorem validate_opening {o : VOrder} {u : Unit} (h : b.validate o = .ok u) :
    o.tif = .opg → o.otype = .market := by
  simp only [Book.validate, bind_eq_ok, refuseIf_eq_ok, not_and, not_not] at h
  obtain ⟨_, -, _, -, _, -, _, hopening, -⟩ := h
  exact hopening

theorem take_leaves {o : VOrder} {clock : Clock} (hb : b.Tidy) (hnew : b.orders.get o.id = none)
    (hopening : o.tif = .opg → o.otype = .market) :
    Post (fun _ => Carried b) (fun _ => Carried b) (Act.take A cal o clock b) := by
  have hset : ∀ w : Working, w.order = o → (b.setOrder o.id w).Tidy ∧ Carried b (b.setOrder o.id w) := by
    rintro w rfl
    have htidy := hb.setOrder (w := w) rfl hopening
    exact ⟨htidy, .write htidy (by simp [hnew])⟩
  unfold Act.take
  rw [post_bind]
  refine Post.lift (fun t _ => ?_) fun _ _ => .refl hb
  rw [post_bind]
  apply Post.gets
  cases b.lateExitReason o with
  | some reason =>
      dsimp only
      rw [post_bind]
      apply Post.modify
      exact (hset _ rfl).2.reads
  | none =>
      dsimp only
      rw [post_bind]
      apply Post.modify
      obtain ⟨htidy, hcarried⟩ := hset ⟨o, .accepted, .zero, t, false⟩ rfl
      rw [post_bind]
      refine (fillStopInsideEntryBar_leaves htidy).weaken (fun _ b₂ h => ?_) fun _ b₂ h => ?_
      · exact (hcarried.after rfl h).reads
      · exact hcarried.after rfl h

theorem repeated_leaves {o : VOrder} {clock : Clock} (hb : b.Tidy) :
    Post (fun _ => Carried b) (fun _ => Carried b) (Act.repeated w o clock b) := by
  unfold Act.repeated
  rw [post_bind]
  refine Post.lift (fun _ _ => ?_) fun _ _ => .refl hb
  cases w.state <;> exact (Carried.refl hb).reads

/-- A submission once the due orders are gone. -/
theorem submitted_leaves {o : VOrder} {clock : Clock} (hb : b.Tidy) :
    Post (fun _ => Carried b) (fun _ => Carried b)
      ((do
        read (·.validate o)
        match ← gets (·.orders.get o.id) with
        | some existing => Act.repeated existing o clock
        | none => Act.take A cal o clock : Act Ack) b) := by
  rw [post_bind]
  refine Post.lift (fun _ hvalid => ?_) fun _ _ => .refl hb
  rw [post_bind]
  apply Post.gets
  cases hold : b.orders.get o.id with
  | some existing => exact repeated_leaves hb
  | none => exact take_leaves hb hold (validate_opening hvalid)

/-- An order that has not expired is written, then stamped with the time of the event. -/
theorem stamped_leaves {clock : Clock} (hb : b.Tidy) (hget : b.orders.get id = some w)
    (hlive : w.state ≠ .expired) (hid : w'.order.id = id) (hlive' : w'.state ≠ .expired)
    (hopening : w'.order.tif = .opg → w'.order.otype = .market) :
    Post (fun _ => Carried b) (fun _ => Carried b)
      ((do
        modify (·.setOrder id w')
        let at' ← read (·.eventTime (clock 1))
        modify (·.setOrder id { w' with updatedAt := at' })
        Act.ack id .accepted none (clock 2) : Act Ack) b) := by
  have htidy : (b.setOrder id w').Tidy := hb.setOrder hid hopening
  have hfirst : Carried b (b.setOrder id w') := by
    refine .write htidy fun v hv => ?_
    rw [hget] at hv
    cases hv
    exact hlive
  rw [post_bind]
  apply Post.modify
  rw [post_bind]
  refine Post.lift (fun t _ => ?_) fun _ _ => hfirst
  rw [post_bind]
  apply Post.modify
  have hsecond : Carried (b.setOrder id w') ((b.setOrder id w').setOrder id { w' with updatedAt := t }) := by
    refine .write (htidy.setOrder hid hopening) fun v hv => ?_
    rw [Book.get_setOrder, if_pos rfl] at hv
    cases hv
    exact hlive'
  exact (hfirst.after rfl hsecond).reads

/-- A cancellation once the due orders are gone. -/
theorem cancelled_leaves {clock : Clock} (hb : b.Tidy) :
    Post (fun _ => Carried b) (fun _ => Carried b)
      ((do
        let w ← read (·.requireOrder id)
        match w.state with
        | .cancelled => Act.ack id .accepted none (clock 1)
        | .filled | .expired | .rejected => Act.ack id .rejected (some s!"Order is {w.state.value}") (clock 1)
        | _ => do
          modify (·.setOrder id { w with state := .cancelled })
          let at' ← read (·.eventTime (clock 1))
          modify (·.setOrder id { w with state := .cancelled, updatedAt := at' })
          Act.ack id .accepted none (clock 2) : Act Ack) b) := by
  rw [post_bind]
  refine Post.lift (fun w hw => ?_) fun _ _ => .refl hb
  have hget := Book.requireOrder_ok hw
  have hopen : w.state ≠ .expired → Post (fun _ => Carried b) (fun _ => Carried b)
      ((do
        modify (·.setOrder id { w with state := .cancelled })
        let at' ← read (·.eventTime (clock 1))
        modify (·.setOrder id { w with state := .cancelled, updatedAt := at' })
        Act.ack id .accepted none (clock 2) : Act Ack) b) := by
    intro hlive
    exact stamped_leaves hb hget hlive (hb.ids id w hget) (by simp)
      (hb.opening id w hget)
  cases hstate : w.state with
  | cancelled => exact (Carried.refl hb).reads
  | filled => exact (Carried.refl hb).reads
  | expired => exact (Carried.refl hb).reads
  | rejected => exact (Carried.refl hb).reads
  | _ => exact hopen (by rw [hstate]; simp)

/-- The replacement keeps the id, the type and the time in force. -/
theorem replacement_terms {o o' : VOrder} {changes : OrderChanges} (h : Book.replacement o changes = .ok o') :
    o'.id = o.id ∧ o'.otype = o.otype ∧ o'.tif = o.tif := by
  simp only [Book.replacement, bind_eq_ok] at h
  obtain ⟨allocs, -, _, -, h⟩ := h
  split at h
  · simp at h
  · simp only [bind_eq_ok, pure_eq_ok] at h
    obtain ⟨_, -, _, -, _, -, _, -, rfl⟩ := h
    exact ⟨rfl, rfl, rfl⟩

theorem replaceRefusal_none {q : Option Money} (h : Act.replaceRefusal w q = none) : w.state ≠ .expired := by
  intro hexpired
  simp [Act.replaceRefusal, hexpired, working] at h

/-- A replacement once the due orders are gone. -/
theorem replaced_leaves {changes : OrderChanges} {clock : Clock} (hb : b.Tidy) :
    Post (fun _ => Carried b) (fun _ => Carried b)
      ((do
        let w ← read (·.requireOrder id)
        match Act.replaceRefusal w changes.newQuantity with
        | some msg => Act.ack id .rejected (some msg) (clock 1)
        | none => match Book.replacement w.order changes with
          | .error e => Act.ack id .rejected (some e.msg) (clock 1)
          | .ok order => Act.replaceCommit id order clock : Act Ack) b) := by
  rw [post_bind]
  refine Post.lift (fun w hw => ?_) fun _ _ => .refl hb
  have hget := Book.requireOrder_ok hw
  cases hrefusal : Act.replaceRefusal w changes.newQuantity with
  | some msg => exact (Carried.refl hb).reads
  | none =>
      have hlive := replaceRefusal_none hrefusal
      cases hnew : Book.replacement w.order changes with
      | error e => exact (Carried.refl hb).reads
      | ok o =>
          obtain ⟨hid, htype, htif⟩ := replacement_terms hnew
          dsimp only
          unfold Act.replaceCommit
          rw [post_bind]
          refine Post.lift (fun v hv => ?_) fun _ _ => .refl hb
          have hv := Book.requireOrder_ok hv
          rw [hget] at hv
          cases hv
          refine stamped_leaves hb hget hlive (hid.trans (hb.ids id w hget)) ?_ ?_
          · dsimp only
            split
            · simp
            · exact hlive
          · rw [htype, htif]
            exact hb.opening id w hget

/-! ## Clocked calls -/

theorem Swept.carried {done : List String} (h : Swept (Due cal b now) (Waits cal b now) b done b₁) :
    Carried b b₁ ∧ b₁.fills = b.fills := by
  have hfills : b₁.fills = b.fills := by rw [h.rest]
  refine ⟨⟨h.tidy, ?_, [], by rw [hfills, List.append_nil], by simp⟩, hfills⟩
  intro id w hw hexpired
  obtain ⟨w', hw', -, rfl | ⟨hlive, -⟩⟩ := h.present id w hw
  · exact hw'
  · exact absurd hexpired (working_ne_expired hlive)

/-- The book between the clock and the call's own work. -/
def Ticked (cal : Calendars) (clock : R Ts) (b b' : Book) : Prop :=
  ∃ now b₁, clock = .ok now ∧ Lapsed cal b now b₁ ∧ Carried b₁ b'

theorem Ticked.carried {clock : R Ts} (h : Ticked cal clock b b₂) : Carried b b₂ := by
  obtain ⟨now, b₁, -, hlapsed, hcarried⟩ := h
  obtain ⟨hfirst, hquiet⟩ := hlapsed.carried
  exact hfirst.after hquiet hcarried

theorem clocked_leaves {α : Type} {p : Act α} {clock : R Ts} (hb : b.Tidy)
    (hp : ∀ b₁ : Book, b₁.Tidy → Post (fun _ => Carried b₁) (fun _ => Carried b₁) (p b₁)) :
    Post (fun _ => Ticked cal clock b) (fun _ => Carried b)
      ((do
        Act.expireDue cal clock
        p : Act α) b) := by
  rw [post_bind]
  refine (expireDue_leaves hb clock).weaken (fun _ b₁ h => ?_) fun _ b₁ h => ?_
  · obtain ⟨now, hnow, hlapsed⟩ := h
    obtain ⟨hfirst, hquiet⟩ := hlapsed.carried
    exact (hp b₁ hlapsed.tidy).weaken (fun _ _ h => ⟨now, b₁, hnow, hlapsed, h⟩)
      fun _ _ h => hfirst.after hquiet h
  · rcases h with rfl | ⟨now, done, h⟩
    · exact .refl hb
    · exact h.carried.1

/-! ## Bars -/

theorem Matched.carried {new : List VFill} (h : Matched A cal b bar new b₁) : Carried b b₁ := by
  obtain ⟨choices, hworked, heligible⟩ := h.worked
  refine ⟨hworked.tidy, ?_, new, hworked.fills, ?_⟩
  · intro id w hw hexpired
    obtain ⟨w', hw', hchanged⟩ := hworked.present id w hw
    cases hchanged with
    | same => exact hw'
    | lapsed _ hlive _ => exact absurd hexpired (working_ne_expired hlive)
    | noted hready _ => exact absurd hexpired (working_ne_expired hready.live)
    | filled hready => exact absurd hexpired (working_ne_expired hready.live)
  · intro f hf
    obtain ⟨w, hw, hready, -, -, hat, hmem⟩ := hworked.made f hf
    obtain ⟨w', hw', hchanged⟩ := hworked.present f.orderId w hw
    obtain ⟨v, hv, -, hprotects⟩ := heligible _ hmem
    rw [hw] at hv
    cases hv
    refine ⟨w', hw', ?_, Or.inl ?_⟩
    · rw [hchanged.terms]
      exact hprotects
    · rw [hchanged.terms, hat]
      exact hready.later

theorem Carried.lastBar (h : Carried b b₁) (bars : OMap Instrument Bar) :
    Carried b { b₁ with lastBars := bars } :=
  ⟨⟨h.tidy.keys, h.tidy.ids, h.tidy.opening⟩, h.expired, h.fills⟩

/-! ## Restoring -/

/-- A book being restored holds the fills it had and some of those handed to it. -/
structure Restoring (fs : List VFill) (b b' : Book) : Prop where
  tidy : b'.Tidy
  fills : ∃ new, b'.fills = b.fills ++ new ∧ ∀ f ∈ new, f ∈ fs

variable {fs : List VFill}

theorem Restoring.setOrder (h : Restoring fs b b₁) (hid : w.order.id = id)
    (hopening : w.order.tif = .opg → w.order.otype = .market) : Restoring fs b (b₁.setOrder id w) :=
  ⟨h.tidy.setOrder hid hopening, h.fills⟩

theorem restoreOrders_leaves (clock : Clock) (reads : Nat) (orders : List (VOrder × OrderState)) :
    Triple (Restoring fs b) (Act.restoreOrders cal clock reads orders) (fun _ => Restoring fs b)
      (fun _ => Restoring fs b) := by
  induction orders generalizing reads with
  | nil => exact Triple.pure fun _ h => h
  | cons x rest ih =>
      obtain ⟨o, state⟩ := x
      intro b₁ h
      unfold Act.restoreOrders
      rw [post_bind]
      refine Post.lift (fun _ _ => ?_) fun _ _ => h
      rw [post_bind]
      refine Post.lift (fun _ _ => ?_) fun _ _ => h
      rw [post_bind]
      refine Post.lift (fun _ hvalid => ?_) fun _ _ => h
      rw [post_bind]
      refine Post.lift (fun reads' _ => ?_) fun _ _ => h
      rw [post_bind]
      apply Post.modify
      exact ih reads' _ (h.setOrder rfl (validate_opening hvalid))

theorem restoreFill_leaves {f : VFill} (hf : f ∈ fs) :
    Triple (Restoring fs b) (Act.restoreFill A f) (fun _ => Restoring fs b) (fun _ => Restoring fs b) := by
  intro b₁ h
  unfold Act.restoreFill
  rw [post_bind]
  refine Post.lift (fun w hw => ?_) fun _ _ => h
  have hget : b₁.orders.get f.orderId = some w := by
    cases hold : b₁.orders.get f.orderId with
    | none => simp [hold, err] at hw
    | some v =>
        simp only [hold, pure_eq_ok] at hw
        rw [hw]
  rw [post_bind]
  refine Post.lift (fun _ _ => ?_) fun _ _ => h
  rw [post_bind]
  refine Post.lift (fun _ _ => ?_) fun _ _ => h
  rw [post_bind]
  refine Post.lift (fun n _ => ?_) fun _ _ => h
  rw [post_bind]
  apply Post.modify
  have hcounted : ∀ counts, Restoring fs b { b₁ with fillCounts := counts } :=
    fun _ => ⟨⟨h.tidy.keys, h.tidy.ids, h.tidy.opening⟩, h.fills⟩
  rw [post_bind]
  refine Post.lift (fun filled _ => ?_) fun _ _ => hcounted _
  rw [post_bind]
  apply Post.modify
  have hset := (hcounted (b₁.fillCounts.put f.orderId (max ((b₁.fillCounts.get f.orderId).getD 0) n))).setOrder
    (w := { w with filled := filled, updatedAt := tsMax w.updatedAt f.filledAt, triggered := true })
    (h.tidy.ids f.orderId w hget) (h.tidy.opening f.orderId w hget)
  apply Post.modify
  refine ⟨⟨hset.tidy.keys, hset.tidy.ids, hset.tidy.opening⟩, ?_⟩
  obtain ⟨new, hnew, hmem⟩ := hset.fills
  refine ⟨new ++ [f], by rw [← List.append_assoc, ← hnew], ?_⟩
  intro g hg
  rcases List.mem_append.mp hg with hg | hg
  · exact hmem g hg
  · rw [List.mem_singleton.mp hg]
    exact hf

theorem restorePosition_leaves (p : Pos) :
    Triple (Restoring fs b) (Act.restorePosition p) (fun _ => Restoring fs b) (fun _ => Restoring fs b) := by
  intro b₁ h
  unfold Act.restorePosition
  rw [post_bind]
  apply Post.gets
  split
  · rw [post_bind]
    refine Post.lift (fun _ _ => ?_) fun _ _ => h
    exact Post.lift (fun _ _ => h) fun _ _ => h
  · split
    · exact h
    · apply Post.modify
      exact ⟨⟨h.tidy.keys, h.tidy.ids, h.tidy.opening⟩, h.fills⟩

theorem restore_leaves {orders : List (VOrder × OrderState)} {positions : List Pos} {clock : Clock} (hb : b.Tidy) :
    Post (fun _ => Restoring fs b) (fun _ => Restoring fs b) (Act.restore A cal orders fs positions clock b) := by
  have hstart : Restoring fs b b := ⟨hb, [], (List.append_nil _).symm, by simp⟩
  unfold Act.restore
  rw [post_bind]
  refine Post.lift (fun _ _ => ?_) fun _ _ => hstart
  rw [post_bind]
  refine (restoreOrders_leaves clock 0 _ b hstart).weaken (fun _ b₁ h₁ => ?_) fun _ _ h => h
  rw [post_bind]
  refine (Triple.forEach (fun f hf => restoreFill_leaves ?_) b₁ h₁).weaken (fun _ b₂ h₂ => ?_) fun _ _ h => h
  · exact (List.mem_insertionSort _).mp hf
  · rw [post_bind]
    apply Post.gets
    rw [post_bind]
    refine (Triple.forEach (fun w _ => Triple.lift (fun _ _ _ h => h) fun _ _ _ h => h) b₂ h₂).weaken
      (fun _ b₃ h₃ => ?_) fun _ _ h => h
    exact Triple.forEach (fun p _ => restorePosition_leaves p) b₃ h₃

/-! ## Requests -/

theorem newWithVenue_tidy {accountId : String} {bps : Money} {ticks : Nat} {venue : VenueCalendar}
    (h : Book.newWithVenue accountId bps ticks venue = .ok b) : b.Tidy := by
  simp only [Book.newWithVenue, bind_eq_ok, pure_eq_ok] at h
  obtain ⟨_, -, _, -, rfl⟩ := h
  exact ⟨by simp [OMap.empty], by simp, by simp⟩

/-- The clock a call lapses orders by. -/
def Request.clock? : Request → Option Clock
  | .submit _ clock => some clock
  | .cancel _ clock => some clock
  | .replace _ _ clock => some clock
  | .orders _ clock => some clock
  | .fills _ clock => some clock
  | .positions clock => some clock
  | .connect _ => none
  | .restore _ _ _ _ => none
  | .processBar _ => none

theorem perform_clocked (A : Arith) (cal : Calendars) {r : Request} {clock : Clock} (hb : b.Tidy) (hclock : r.clock? = some clock) :
    Post (fun _ => Ticked cal (clock 0) b) (fun _ => Carried b) (perform A cal r b) := by
  cases r with
  | submit o clock =>
      cases hclock
      unfold perform Act.submit
      rw [post_discard, post_bind]
      refine Post.lift (fun _ _ => ?_) fun _ _ => .refl hb
      exact clocked_leaves hb fun _ h => submitted_leaves h
  | cancel id clock =>
      cases hclock
      unfold perform Act.cancel
      rw [post_discard]
      exact clocked_leaves hb fun _ h => cancelled_leaves h
  | replace id changes clock =>
      cases hclock
      unfold perform Act.replace
      rw [post_discard]
      exact clocked_leaves hb fun _ h => replaced_leaves h
  | orders since clock =>
      cases hclock
      unfold perform Act.ordersSince
      rw [post_discard, post_bind]
      refine Post.lift (fun _ _ => ?_) fun _ _ => .refl hb
      exact clocked_leaves hb fun _ h => (Carried.refl h).reads
  | fills since clock =>
      cases hclock
      unfold perform Act.fillsSince
      rw [post_discard, post_bind]
      refine Post.lift (fun _ _ => ?_) fun _ _ => .refl hb
      exact clocked_leaves hb fun _ h => Post.gets (Carried.refl h)
  | positions clock =>
      cases hclock
      unfold perform Act.positions
      rw [post_discard]
      exact clocked_leaves hb fun _ h => (Carried.refl h).reads
  | connect clock => cases hclock
  | restore orders fills positions clock => cases hclock
  | processBar bar? => cases hclock

theorem perform_connect {clock : Clock} (hb : b.Tidy) :
    Post (fun _ => Carried b) (fun _ => Carried b) (perform A cal (.connect clock) b) := by
  unfold perform Act.connect
  have h : Carried b { b with connected := true } :=
    ⟨⟨hb.keys, hb.ids, hb.opening⟩, fun _ _ h _ => h, [], (List.append_nil _).symm, by simp⟩
  rw [post_discard, post_bind]
  apply Post.modify
  exact Post.lift (fun _ _ => h) fun _ _ => h

theorem perform_processBar {bar? : Option Bar} (hb : b.Tidy) :
    Post (fun _ => Carried b) (fun _ => Carried b) (perform A cal (.processBar bar?) b) := by
  unfold perform
  rw [post_discard]
  refine (processBar_leaves hb bar?).weaken (fun _ b' h => ?_) fun _ b' h => ?_
  · rcases h with ⟨-, rfl⟩ | ⟨bar, new, b₁, -, hmatched, rfl, -⟩
    · exact .refl hb
    · exact hmatched.carried.lastBar _
  · rcases h with ⟨-, rfl⟩ | ⟨bar, new, -, hmatched⟩
    · exact .refl hb
    · exact hmatched.carried

/-- The fills a call brings in from outside. -/
def Request.handed : Request → List VFill
  | .restore _ given _ _ => given
  | _ => []

/-- A call keeps the book tidy, and the fills it adds were handed to it or made by it. -/
theorem after_leaves (A : Arith) (cal : Calendars) (hb : b.Tidy) (r : Request) :
    (after A cal b r).Tidy ∧ ∃ new, (after A cal b r).fills = b.fills ++ new ∧
      ∀ f ∈ new, f ∈ r.handed ∨ Made (after A cal b r) f := by
  have hcarried : ∀ {b'}, Carried b b' → b'.Tidy ∧ ∃ new, b'.fills = b.fills ++ new ∧
      ∀ f ∈ new, f ∈ r.handed ∨ Made b' f := by
    intro b' h
    obtain ⟨new, hnew, hmade⟩ := h.fills
    exact ⟨h.tidy, new, hnew, fun f hf => Or.inr (hmade f hf)⟩
  unfold after
  cases hclock : r.clock? with
  | some clock =>
      have h := (perform_clocked A cal hb hclock).weaken (fun _ _ h => h.carried) fun _ _ h => h
      exact hcarried h.reached
  | none =>
      cases r with
      | connect clock => exact hcarried (perform_connect hb).reached
      | processBar bar? => exact hcarried (perform_processBar hb).reached
      | restore orders given positions clock =>
          have h : Restoring given b (perform A cal (.restore orders given positions clock) b).2 :=
            (restore_leaves hb).reached
          obtain ⟨new, hnew, hmem⟩ := h.fills
          exact ⟨h.tidy, new, hnew, fun f hf => Or.inl (hmem f hf)⟩
      | submit o clock => cases hclock
      | cancel id clock => cases hclock
      | replace id changes clock => cases hclock
      | orders since clock => cases hclock
      | fills since clock => cases hclock
      | positions clock => cases hclock

theorem afterAll_tidy (A : Arith) (cal : Calendars) (hb : b.Tidy) (rs : List Request) : (afterAll A cal b rs).Tidy := by
  induction rs generalizing b with
  | nil => exact hb
  | cons r rs ih => exact ih (after_leaves A cal hb r).1

/-! ## Stops before targets -/

/-- With a stop of a group in reach of the bar, one stop is all of the group that fills, and it does
where the bar is matched to its end. -/
def StopFirst (A : Arith) (cal : Calendars) (b : Book) (bar : Bar) (new : List VFill) : Prop :=
  ∀ id w g, b.orders.get id = some w → StopInReach cal b bar g w → ∃ s, StopWins b new g s ∧
    (Act.openBar cal b (some bar) = .ok (some bar) → b.isRegularSessionBar cal bar = .ok true →
      (perform A cal (.processBar (some bar)) b).1 = .ok () → Taken A cal b bar new s)

theorem openBar_same {cal : Calendars} {b : Book} {bar bar' : Bar}
    (h : Act.openBar cal b (some bar) = .ok (some bar')) : bar' = bar := by
  simp only [Act.openBar, bind_eq_ok] at h
  obtain ⟨_, -, _, -, _, -, h⟩ := h
  split at h
  · simp at h
  · simp only [bind_eq_ok, pure_eq_ok, Option.some.injEq] at h
    obtain ⟨_, -, rfl⟩ := h
    rfl

theorem processBar_stopFirst {A : Arith} {cal : Calendars} {b : Book} (hb : b.Tidy) (bar : Bar)
    {new : List VFill} (hnew : (after A cal b (.processBar (some bar))).fills = b.fills ++ new) :
    StopFirst A cal b bar new := by
  intro id w g hw hstop
  have hquiet : b.fills ++ [] = b.fills ++ new → ∃ s, StopWins b new g s := by
    intro heq
    cases List.append_cancel_left heq
    exact ⟨id, ⟨w, hw, hstop.touched.1, hstop.group⟩, by simp⟩
  have hleaves : Post _ _ (Act.processBar A cal (some bar) b) := processBar_leaves hb (some bar)
  have hperform : perform A cal (.processBar (some bar)) b = _ := discard_apply (Act.processBar A cal (some bar)) b
  rw [after, hperform] at hnew
  rw [hperform]
  rcases hrun : Act.processBar A cal (some bar) b with ⟨e | u, b'⟩
  · rw [hrun] at hnew hleaves
    rcases hleaves with ⟨-, rfl⟩ | ⟨bar', new', hopened, hmatched⟩
    · obtain ⟨s, hs⟩ := hquiet ((List.append_nil _).trans hnew)
      exact ⟨s, hs, by simp⟩
    · cases openBar_same hopened
      obtain ⟨choices, hworked, -⟩ := hmatched.worked
      cases List.append_cancel_left (hworked.fills.symm.trans hnew)
      obtain ⟨s, hs⟩ := hmatched.stops id w g hw hstop
      exact ⟨s, hs, by simp⟩
  · rw [hrun] at hnew hleaves
    rcases hleaves with ⟨hopened, rfl⟩ | ⟨bar', new', b₁, hopened, hmatched, rfl, hstops⟩
    · obtain ⟨s, hs⟩ := hquiet ((List.append_nil _).trans hnew)
      refine ⟨s, hs, fun hopen => ?_⟩
      rw [hopened] at hopen
      cases hopen
    · cases openBar_same hopened
      obtain ⟨choices, hworked, -⟩ := hmatched.worked
      cases List.append_cancel_left (hworked.fills.symm.trans hnew)
      by_cases hregular : b.isRegularSessionBar cal bar = .ok true
      · obtain ⟨s, hs, htaken⟩ := hstops hregular id w g hw hstop
        exact ⟨s, hs, fun _ _ _ => htaken⟩
      · obtain ⟨s, hs⟩ := hmatched.stops id w g hw hstop
        exact ⟨s, hs, fun _ h => absurd h hregular⟩

/-! ## The close of the session -/

/-- In force after its submission, a DAY order has its close to come. -/
theorem before_close {o : VOrder} {t : Ts} (hday : o.tif = .day) (hlater : o.submittedAt.lt t = true)
    (h : b.hasExpired cal o t = .ok false) :
    ∃ close, b.expiryInstant cal o = .ok (some close) ∧ t.lt close = true := by
  unfold Book.hasExpired at h
  have hafter : t.le o.submittedAt = false := by simp [Ts.le, hlater]
  rw [hafter] at h
  obtain ⟨instant, hinstant, h⟩ := bind_eq_ok.mp h
  cases instant with
  | none =>
      exfalso
      unfold Book.expiryInstant at hinstant
      rw [hday] at hinstant
      cases hvenue : b.venue with
      | xnys =>
          simp only [hvenue, bind_eq_ok, pure_eq_ok] at hinstant
          obtain ⟨_, -, _, -, hnone⟩ := hinstant
          cases hnone
      | globex =>
          simp only [hvenue, bind_eq_ok, pure_eq_ok] at hinstant
          obtain ⟨_, -, _, -, _, -, hnone⟩ := hinstant
          cases hnone
  | some close =>
      refine ⟨close, hinstant, ?_⟩
      simpa [hday, Ts.ge] using h

/-- The fills added are of orders of the book, and those of DAY orders come before the close. -/
def FilledInSession (cal : Calendars) (b b' : Book) : Prop :=
  ∃ new, b'.fills = b.fills ++ new ∧ ∀ f ∈ new, ∃ w, b.orders.get f.orderId = some w ∧
    (w.order.tif = .day → ∃ close, b.expiryInstant cal w.order = .ok (some close) ∧ f.filledAt.lt close = true)

theorem FilledInSession.refl (b : Book) : FilledInSession cal b b := ⟨[], (List.append_nil _).symm, by simp⟩

theorem Matched.in_session {new : List VFill} (h : Matched A cal b bar new b₁) : FilledInSession cal b b₁ := by
  obtain ⟨choices, hworked, -⟩ := h.worked
  refine ⟨new, hworked.fills, fun f hf => ?_⟩
  obtain ⟨w, hw, hready, -, -, hat, -⟩ := hworked.made f hf
  refine ⟨w, hw, fun hday => ?_⟩
  rw [hat]
  exact before_close hday hready.later hready.inForce

theorem processBar_in_session (hb : b.Tidy) (bar? : Option Bar) :
    FilledInSession cal b (after A cal b (.processBar bar?)) := by
  apply Post.reached (I := FilledInSession cal b)
  apply post_discard.mpr
  refine (processBar_leaves hb bar?).weaken (fun _ b' h => ?_) fun _ b' h => ?_
  · rcases h with ⟨-, rfl⟩ | ⟨bar, new, b₁, -, h, rfl, -⟩
    · exact .refl _
    · exact h.in_session
  · rcases h with ⟨-, rfl⟩ | ⟨bar, new, -, h⟩
    · exact .refl _
    · exact h.in_session

/-- Past its close and its last bar, a DAY order that works is due. -/
structure Over (cal : Calendars) (b : Book) (w : Working) (now : Ts) : Prop where
  day : w.order.tif = .day
  later : w.order.submittedAt.lt now = true
  close : ∃ close last bar, b.expiryInstant cal w.order = .ok (some close) ∧ now.ge close = true ∧
    close.addSeconds (-60) = .ok last ∧ b.lastBars.get w.order.instr.hk = some bar ∧ bar.ts.ge last = true

theorem Over.not_waits (h : Over cal b w now) (hlive : working w.state = true) : ¬ Waits cal b now w := by
  obtain ⟨close, last, bar, hclose, hpast, hlast, hbar, hseen⟩ := h.close
  intro hwaits
  rcases hwaits hlive with hforce | ⟨close', last', hclose', hlast', hbars⟩
  · obtain ⟨close', hclose', hlt⟩ := before_close h.day h.later hforce
    rw [hclose] at hclose'
    cases hclose'
    simp [Ts.ge, hlt] at hpast
  · rw [hclose] at hclose'
    cases hclose'
    rw [lastChance, if_neg (by rw [h.day]; simp), hlast] at hlast'
    cases hlast'
    have hearly := hbars bar hbar
    simp [Ts.ge, hearly] at hseen

theorem perform_expires {r : Request} {clock : Clock} (hb : b.Tidy) (hw : b.orders.get id = some w)
    (hlive : working w.state = true) (hover : Over cal b w now) (hclock : r.clock? = some clock)
    (hnow : clock 0 = .ok now) (hrun : perform A cal r b = (.ok (), b₂)) :
    ∃ w', b₂.orders.get id = some w' ∧ w'.state = .expired := by
  obtain ⟨now', b₁, hnow', hlapsed, hcarried⟩ := (perform_clocked A cal hb hclock).ok hrun
  rw [hnow] at hnow'
  cases hnow'
  obtain ⟨w', hw', -, rfl | ⟨-, -, instant, rfl⟩⟩ := hlapsed.present id w hw
  · exact absurd (hlapsed.seen id (Book.mem_orderIds hb hw) w' hw') (hover.not_waits hlive)
  · exact ⟨_, hcarried.expired id _ hw' rfl, rfl⟩

end TradeEngine.Sim
