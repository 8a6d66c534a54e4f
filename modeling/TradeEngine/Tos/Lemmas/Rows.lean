import TradeEngine.Tos.Lemmas.Session

/-!
# What a session does to its ledger

Only a transaction changes the ledger, so what holds of every write holds of a whole history: no halt is
lifted but by the operator, and no order is both queued and refused.
-/

namespace TradeEngine.Tos.Session

open Lib Prog

variable {A : Arith} {sha256 : String → String} {H : Host} {digest : VenueReconcile → String} {disk : Disk}
  {venue : String} {α β : Type}

/-! ## Programs and their writes -/

/-- A relation between states that a broker call keeps, and a transaction of events in `Ours`. The
session's own events are among these. -/
structure Keeping (A : Arith) (venue : String) (Ours : Event → Prop) (Q : State → State → Prop) : Prop where
  trans : ∀ {a b c : State}, Q a b → Q b c → Q a c
  call : ∀ {s s' : State} {new : List Passed}, s'.ledger = s.ledger → s'.passed = s.passed ++ new →
    (∀ p ∈ new, p.ledger = s.ledger) → Q s s'
  commit : ∀ {s s' : State} {events : List Event}, (∀ e ∈ events, Ours e) → s'.passed = s.passed →
    Committed A events s.ledger s'.ledger → Q s s'
  ours : ∀ {now : Stamp} {item : Obj × String} {e : Event}, eventOf venue now item = .ok e → Ours e

theorem Keeping.same {Ours : Event → Prop} {Q : State → State → Prop} (h : Keeping A venue Ours Q) {s s' : State}
    (hledger : s'.ledger = s.ledger) (hpassed : s'.passed = s.passed) : Q s s' := by
  have hnew : s'.passed = s.passed ++ [] := by rw [hpassed, List.append_nil]
  exact h.call hledger hnew (by simp)

/-- A relation between ledgers that every write of an event in `Ours` keeps. -/
structure Writes (A : Arith) (venue : String) (Ours : Event → Prop) (Q : Ledger → Ledger → Prop) : Prop where
  refl : ∀ l, Q l l
  trans : ∀ {a b c : Ledger}, Q a b → Q b c → Q a c
  write : ∀ {acc acc' : Ledger × List Obj} {e : Event}, Ours e → Ledger.write A acc e = .ok acc' → Q acc.1 acc'.1
  ours : ∀ {now : Stamp} {item : Obj × String} {e : Event}, eventOf venue now item = .ok e → Ours e

theorem Writes.committed {Ours : Event → Prop} {Q : Ledger → Ledger → Prop} (h : Writes A venue Ours Q)
    {events : List Event} (hevents : ∀ e ∈ events, Ours e) {l l' : Ledger} (hl : Committed A events l l') :
    Q l l' := by
  obtain ⟨before, after, hfold⟩ := hl
  exact foldlM_invariant (P := fun acc : Ledger × List Obj => Q l acc.1)
    (fun acc e acc' he hone hacc => h.trans hacc (h.write (hevents e he) hone)) hfold (h.refl l)

theorem Writes.keeping {Ours : Event → Prop} {Q : Ledger → Ledger → Prop} (h : Writes A venue Ours Q) :
    Keeping A venue Ours fun s s' => Q s.ledger s'.ledger where
  trans := h.trans
  call hledger _ _ := by
    rw [hledger]
    exact h.refl _
  commit hevents _ hl := h.committed hevents hl
  ours := h.ours

/-- However the program ends, its state stands in the relation to the one it started from. -/
def Within (Q : State → State → Prop) (p : S α) : Prop := ∀ s, Q s (p s).2

section Programs

variable {Ours : Event → Prop} {Q : State → State → Prop} (h : Keeping A venue Ours Q)

include h

theorem Within.same {p : S α} (hp : ∀ s, (p s).2.ledger = s.ledger ∧ (p s).2.passed = s.passed) : Within Q p :=
  fun s => h.same (hp s).1 (hp s).2

theorem Within.bind {p : S α} {f : α → S β} (hp : Within Q p) (hf : ∀ a, Within Q (f a)) :
    Within Q (p >>= f) := by
  intro s
  change Q s (Prog.bind p f s).2
  have hstep := hp s
  unfold Prog.bind
  rcases hr : p s with ⟨e | a, s'⟩
  all_goals rw [hr] at hstep
  · exact hstep
  · exact h.trans hstep (hf a s')

omit h in
theorem Within.attempt {p : S α} (hp : Within Q p) : Within Q (Prog.attempt p) := fun s => hp s

omit h in
theorem Within.ite {c : Prop} [Decidable c] {p q : S α} (hp : Within Q p) (hq : Within Q q) :
    Within Q (if c then p else q) := by
  by_cases hc : c
  · simpa only [hc, if_true] using hp
  · simpa only [hc, if_false] using hq

theorem within_pure {a : α} : Within Q (pure a : S α) := .same h fun _ => ⟨rfl, rfl⟩

theorem within_get : Within Q get := .same h fun _ => ⟨rfl, rfl⟩

theorem within_lift {x : R α} : Within Q (lift x) := .same h fun _ => ⟨rfl, rfl⟩

theorem within_fail {f : Fault} : Within Q (Prog.fail f : S α) := .same h fun _ => ⟨rfl, rfl⟩

theorem within_broker {p : M α} : Within Q (onBroker p) := by
  intro s
  refine h.call rfl rfl fun q hq => ?_
  obtain ⟨send, -, rfl⟩ := List.mem_map.mp hq
  rfl

theorem within_forEach {f : α → S Unit} {l : List α} (hf : ∀ a, Within Q (f a)) : Within Q (Prog.forEach f l) := by
  induction l with
  | nil => exact within_pure h
  | cons a l ih => exact .bind h (hf a) fun _ => ih

theorem within_extend {events : List Event} (hevents : ∀ e ∈ events, Ours e) : Within Q (extend A disk events) := by
  intro s
  refine Post.reached (I := fun s' => Q s s') ((extend_spec s).weaken (fun _ _ h' => ?_) fun _ s' h' => ?_)
  · exact h.commit hevents h'.1.passed h'.2
  · rcases h'.2 with hsame | hcommitted
    · exact h.same hsame h'.1.passed
    · exact h.commit hevents h'.1.passed hcommitted

theorem within_given {x : R α} {f : α → S β} (hf : ∀ a, x = .ok a → Within Q (f a)) : Within Q (lift x >>= f) := by
  intro s
  cases hx : x with
  | error e => exact h.same rfl rfl
  | ok a => exact hf a hx s

theorem within_append {items : List (Obj × String)} : Within Q (append A H disk venue items) := by
  refine .ite (within_pure h) (.bind h (within_broker h) fun now => within_given h fun events hevents => ?_)
  refine within_extend h fun e he => ?_
  obtain ⟨i, -, hi⟩ := forall₂_right (mapM_ok hevents) e he
  exact h.ours hi

theorem within_reconcile {event : VenueReconcile} {phase : String} :
    Within Q (reconcile A H digest disk venue event phase) := by
  refine .bind h (.same h fun _ => ⟨rfl, rfl⟩) fun _ => .bind h (within_append h) fun written => ?_
  split
  · exact within_pure h
  · exact within_lift h

theorem within_haltUnproven {phase : String} : Within Q (haltUnproven A H digest disk venue phase) := by
  refine .bind h (within_get h) fun s => .ite (within_pure h) (.bind h (within_lift h) fun names => ?_)
  refine .bind h (within_broker h) fun now => .bind h (within_lift h) fun halt => ?_
  exact .bind h (within_reconcile h) fun _ => within_pure h

theorem within_restore : Within Q (restore A venue) := .bind h (within_get h) fun _ => within_broker h

theorem within_cannotBook {fills : List MirrorFill} {why : String} :
    Within Q (cannotBook A H digest disk venue fills why) := by
  refine .bind h (within_get h) fun s => .bind h (within_lift h) fun units => .bind h (within_lift h) fun found => ?_
  refine .bind h (within_broker h) fun now => .bind h (within_lift h) fun halt => ?_
  exact .bind h (within_reconcile h) fun written => .bind h (within_restore h) fun _ => within_pure h

theorem within_closing {written : List Obj} : Within Q (closing A H digest disk venue written) := by
  refine .bind h (within_haltUnproven h) fun _ => .bind h (within_restore h) fun _ => ?_
  refine .bind h (within_broker h).attempt fun answer => ?_
  split
  · exact .ite (.bind h (within_get h) fun _ => within_pure h) (within_fail h)
  · exact .bind h (within_reconcile h) fun _ => .bind h (within_get h) fun _ => within_pure h

theorem within_collect : Within Q (collect A H digest disk venue) := by
  refine .bind h (.same h fun _ => ⟨rfl, rfl⟩) fun _ => .bind h (within_get h) fun s => ?_
  refine .bind h (within_broker h).attempt fun answer => ?_
  split
  · exact .bind h (within_reconcile h) fun _ => within_pure h
  · exact .ite (.bind h (within_get h) fun _ => within_pure h) (within_fail h)
  · refine .bind h (within_append h).attempt fun written => ?_
    split
    · split
      · exact within_cannotBook h
      · exact within_fail h
    · exact within_closing h

theorem within_dropQueue : Within Q (dropQueue A H) := by
  refine .bind h (within_get h) fun s => within_forEach h fun t => ?_
  exact .bind h (within_broker h) fun _ => within_pure h

theorem within_writeAhead {items : List (Obj × String)} : Within Q (writeAhead A H disk venue items) := by
  refine .bind h (within_append h).attempt fun answer => ?_
  split
  · exact within_pure h
  · exact .ite (within_fail h) (.bind h (within_dropQueue h) fun _ => within_fail h)

theorem within_drainQueued {collected : Report} {written : List Obj} {waiting : List (String × String)} :
    Within Q (drainQueued A H digest disk venue collected written waiting) := by
  refine .bind h (within_broker h) fun report => .bind h (within_append h) fun acked => ?_
  refine .bind h (within_haltUnproven h) fun halt => .bind h ?_ fun _ => .bind h ?_ fun drained => ?_
  · exact .ite (within_restore h) (within_pure h)
  · unfold reconcileDrain
    split
    · exact .bind h (within_reconcile h) fun _ => within_pure h
    · exact within_pure h
  · exact .bind h (within_get h) fun _ => within_pure h

theorem within_mirrorTodo {collected : Report} {orders : List Order} {cover : Classified} {now : Stamp} :
    Within Q (mirrorTodo A sha256 H digest disk venue collected orders cover now) := by
  refine .bind h (within_get h) fun s => .bind h (within_lift h) fun holdings => ?_
  refine .bind h (within_broker h) fun batch => .bind h (within_get h) fun s' => .bind h (within_lift h) fun items => ?_
  exact .bind h (within_writeAhead h) fun written => within_drainQueued h

theorem within_preflighted : Within Q (preflighted A H) := by
  refine .bind h (within_get h) fun s => .ite (within_pure h) (.bind h (within_broker h).attempt fun answer => ?_)
  split
  · exact within_pure h
  · exact .ite (within_pure h) (within_fail h)

theorem within_mirrorOrders {collected : Report} {orders : List Order} {mayWait : Bool} :
    Within Q (mirrorOrders A sha256 H digest disk venue collected orders mayWait) := by
  refine .bind h (within_broker h) fun now => .bind h (within_get h) fun s => .bind h (within_lift h) fun cover => ?_
  refine .ite (.bind h (within_lift h) fun items => .bind h (within_append h) fun _ => within_pure h) ?_
  refine .bind h (within_preflighted h) fun deferred => ?_
  split
  · exact within_pure h
  · exact within_mirrorTodo h

theorem within_runMirror {orders : List Order} {mayWait : Bool} :
    Within Q (runMirror A sha256 H digest disk venue orders mayWait) := by
  refine .bind h (within_collect h) fun collected => .ite (within_pure h) (.bind h (within_get h) fun s => ?_)
  exact .ite (within_pure h) (within_mirrorOrders h)

theorem within_cancelTicket {key : String} : Within Q (cancelTicket A H disk venue key) := by
  refine .bind h (within_restore h) fun _ => .bind h (within_get h) fun s => .bind h (within_broker h) fun ack => ?_
  split
  · exact .ite (.bind h (within_append h) fun _ => within_pure h) (within_pure h)
  · exact within_pure h

theorem within_clearHalt {reason : String}
    (hours : ∀ {now : Stamp} {seq : Int} {account : String} {e : Event},
      clearedEvent venue now reason seq account = .ok e → Ours e) :
    Within Q (clearHalt A H disk venue reason) := by
  refine .bind h (within_lift h) fun _ => .bind h (within_get h) fun s => .bind h (within_lift h) fun _ => ?_
  split
  · exact within_lift h
  · refine .bind h (within_lift h) fun _ => .bind h (within_broker h) fun now => ?_
    refine within_given h fun events hevents => .bind h (within_extend h fun e he => ?_) fun _ => within_pure h
    obtain ⟨account, -, hi⟩ := forall₂_right (mapM_ok hevents) e he
    exact hours hi

/-- The events an act writes besides the session's own. -/
def Act.Writes (venue : String) (Ours : Event → Prop) : Act → Prop
  | .clearHalt reason => ∀ now seq account e, clearedEvent venue now reason seq account = .ok e → Ours e
  | .elsewhere events => ∀ e ∈ events, Ours e
  | _ => True

theorem within_exec {O : Outside} {act : Act} (hact : act.Writes venue Ours) :
    Within Q (act.exec A sha256 digest disk venue O) := by
  cases act with
  | run orders mayWait => exact .bind h (within_runMirror h) fun _ => within_pure h
  | collect => exact .bind h (within_collect h) fun _ => within_pure h
  | cancel key => exact .bind h (within_cancelTicket h) fun _ => within_pure h
  | clearHalt reason => exact .bind h (within_clearHalt h fun he => hact _ _ _ _ he) fun _ => within_pure h
  | restart halted connected => exact .same h fun _ => ⟨rfl, rfl⟩
  | elsewhere events => exact .ite (.bind h (within_extend h hact) fun _ => within_pure h) (within_pure h)

theorem within_history {O : Outside} {acts : List Act} (hacts : ∀ a ∈ acts, a.Writes venue Ours) (s : State) :
    Q s (history A sha256 digest disk venue O acts s) := by
  induction acts generalizing s with
  | nil => exact h.same rfl rfl
  | cons act acts ih =>
      have hstep : Q s (act.exec A sha256 digest disk venue O s).2 :=
        within_exec h (hacts act List.mem_cons_self) s
      exact h.trans hstep (ih (fun a ha => hacts a (List.mem_cons_of_mem _ ha)) _)

end Programs

theorem writes_any {act : Act} : act.Writes venue fun _ => True := by
  cases act <;> simp [Act.Writes]

/-! ## Halts -/

def lifts (e : Event) : Bool :=
  match e.payload with
  | .haltCleared _ => true
  | _ => false

theorem onFill_halted {st st' : AccountState} {f : Fill} (h : onFill A st f = .ok st') :
    st'.haltedVenues = st.haltedVenues := by
  have hrecord : ∀ {s s' : AccountState} {o : TradeEngine.Order} {leg : Option (Int × ComboLeg)},
      recordFilled A s o leg f = .ok s' → s'.haltedVenues = s.haltedVenues := by
    intro s s' o leg h
    unfold recordFilled at h
    split at h
    · simp only [bind_eq_ok, pure_eq_ok] at h
      obtain ⟨_, -, rfl⟩ := h
      rfl
    · simp only [bind_eq_ok] at h
      obtain ⟨_, -, _, -, _, -, _, -, h⟩ := h
      split at h
      · cases h
        rfl
      · cases h
  have hfill : ∀ {s s' : AccountState} {o : TradeEngine.Order} {m : Money},
      TradeEngine.fillOrder s o f m = .ok s' → s'.haltedVenues = s.haltedVenues := by
    intro s s' o m h
    simp only [TradeEngine.fillOrder, bind_eq_ok, pure_eq_ok] at h
    obtain ⟨_, -, _, -, _, -, rfl⟩ := h
    split <;> rfl
  simp only [onFill, bind_eq_ok, pure_eq_ok] at h
  obtain ⟨_, -, _, -, _, -, _, -, _, -, _, -, _, -, _, -, _, -, _, -, s, hs, s', hs', _, -, _, -, _, -, rfl⟩ := h
  have hhalted := hrecord hs
  exact (hfill hs').trans hhalted

theorem dispatch_latches {st st' : AccountState} {e : Event} (h : dispatch A st e = .ok st') (he : lifts e = false) :
    st.haltedVenues ⊆ st'.haltedVenues := by
  have hsame : st'.haltedVenues = st.haltedVenues → st.haltedVenues ⊆ st'.haltedVenues :=
    fun h => h ▸ List.Subset.refl _
  unfold dispatch at h
  split at h
  case h_1 =>
    split at h
    · cases h
      exact List.Subset.refl _
    · simp at h
  case h_3 =>
    simp only [onOrdersCreated, bind_eq_ok, pure_eq_ok] at h
    obtain ⟨_, -, rfl⟩ := h
    exact List.Subset.refl _
  case h_5 =>
    simp only [onOrderSubmitted, bind_eq_ok, pure_eq_ok] at h
    obtain ⟨_, -, _, -, rfl⟩ := h
    exact List.Subset.refl _
  case h_6 =>
    simp only [onOrderUpdated, bind_eq_ok, pure_eq_ok] at h
    obtain ⟨_, -, _, -, _, -, _, -, _, -, rfl⟩ := h
    exact List.Subset.refl _
  case h_7 =>
    split at h
    · simp only [onOrderState, bind_eq_ok, pure_eq_ok] at h
      obtain ⟨_, -, _, -, rfl⟩ := h
      exact List.Subset.refl _
    · simp only [bind_eq_ok, pure_eq_ok] at h
      obtain ⟨_, -, rfl⟩ := h
      exact List.Subset.refl _
  case h_8 =>
    simp only [bind_eq_ok, pure_eq_ok] at h
    obtain ⟨_, -, rfl⟩ := h
    exact List.Subset.refl _
  case h_9 => exact hsame (onFill_halted h)
  case h_10 =>
    simp only [bind_eq_ok, pure_eq_ok] at h
    obtain ⟨_, -, rfl⟩ := h
    exact List.Subset.refl _
  case h_12 =>
    cases h
    unfold onReconcile
    dsimp only
    split
    · exact List.Subset.refl _
    · exact List.subset_cons_self _ _
  case h_13 c hc => simp [lifts, hc] at he
  case h_15 =>
    simp only [onLifecycle, bind_eq_ok, pure_eq_ok] at h
    obtain ⟨_, -, _, -, _, -, _, -, _, -, _, -, _, -, _, -, rfl⟩ := h
    exact List.Subset.refl _
  case h_16 => exact hsame (mirrorStep_halted h).1
  case h_17 => exact hsame (mirrorStep_halted h).1
  case h_18 => exact hsame (mirrorStep_halted h).1
  case h_19 => exact hsame (mirrorStep_halted h).1
  case h_20 => simp at h
  all_goals
    cases h
    exact List.Subset.refl _

theorem write_latches {acc acc' : Ledger × List Obj} {e : Event} (h : Ledger.write A acc e = .ok acc')
    (he : lifts e = false) {v : String} (hv : v ∈ acc.1.halted) : v ∈ acc'.1.halted := by
  rcases write_ok h with ⟨-, -, hsame⟩ | ⟨row, hrow⟩
  · exact hsame ▸ hv
  obtain ⟨account, st, hst, hmem⟩ := mem_halted.mp hv
  by_cases haccount : account = row.account
  · have happlied := hrow.applied
    simp only [applyEvent, bind_eq_ok, pure_eq_ok] at happlied
    obtain ⟨st₁, hdispatch, hst₁⟩ := happlied
    have hrowLifts : lifts row = false := by simpa only [lifts, hrow.payload] using he
    have hstate : acc.1.stateOf row.account = st := by
      simp only [Ledger.stateOf, ← haccount, hst, Option.getD_some]
    rw [hstate] at hdispatch
    refine hrow.halts ?_
    rw [← hst₁]
    exact dispatch_latches hdispatch hrowLifts hmem
  · exact mem_halted.mpr ⟨account, st, by rw [hrow.others account haccount, hst], hmem⟩

theorem eventOf_kept {now : Stamp} {item : Obj × String} {e : Event} (h : eventOf venue now item = .ok e) :
    lifts e = false := by
  have hpayload := (eventOf_ok h).1
  simp only [eventOf, bind_eq_ok] at h
  obtain ⟨_, -, kind, hkind, -⟩ := h
  unfold kindOf at hkind
  unfold lifts
  rw [hpayload]
  split at hkind <;> simp_all

theorem writes_latched {v : String} : Writes A venue (fun e => lifts e = false)
    fun l l' => v ∈ l.halted → v ∈ l'.halted where
  refl _ := id
  trans h h' := h' ∘ h
  write he h := write_latches h he
  ours := eventOf_kept

/-- A halt stays, and every order placed under it was placed with it in the ledger. -/
def Latched (v : String) (s s' : State) : Prop :=
  (v ∈ s.ledger.halted → v ∈ s'.ledger.halted) ∧
    ∃ new, s'.passed = s.passed ++ new ∧ (v ∈ s.ledger.halted → ∀ p ∈ new, v ∈ p.ledger.halted)

theorem keeping_latched {v : String} : Keeping A venue (fun e => lifts e = false) (Latched v) where
  trans := by
    rintro a b c ⟨hab, new, hnew, hall⟩ ⟨hbc, new', hnew', hall'⟩
    refine ⟨hbc ∘ hab, new ++ new', by rw [hnew', hnew, List.append_assoc], fun hv p hp => ?_⟩
    rcases List.mem_append.mp hp with hp | hp
    · exact hall hv p hp
    · exact hall' (hab hv) p hp
  call := by
    intro s s' new hledger hpassed hnew
    refine ⟨fun hv => hledger ▸ hv, new, hpassed, fun hv p hp => ?_⟩
    rw [hnew p hp]
    exact hv
  commit := by
    intro s s' events hevents hpassed hl
    have hlatched : Writes A venue (fun e => lifts e = false) fun l l' => v ∈ l.halted → v ∈ l'.halted :=
      writes_latched
    exact ⟨hlatched.committed hevents hl, [], by rw [hpassed, List.append_nil], by simp⟩
  ours := eventOf_kept

def Act.keepsHalts : Act → Bool
  | .clearHalt _ => false
  | .elsewhere events => events.all fun e => !lifts e
  | _ => true

theorem Act.keepsHalts_writes {act : Act} (h : act.keepsHalts = true) : act.Writes venue fun e => lifts e = false := by
  cases act with
  | clearHalt reason => cases h
  | elsewhere events =>
      intro e he
      have hone := List.all_eq_true.mp h e he
      simpa using hone
  | _ => trivial

/-! ## Refused orders -/

def Apart (m : MirrorState) : Prop :=
  ∀ id, (m.queuedOrders.get id).isSome = true → m.refusedOrders.get id = none

theorem Apart.same {m m' : MirrorState} (h : Apart m) (hqueued : m'.queuedOrders = m.queuedOrders)
    (hrefused : m'.refusedOrders = m.refusedOrders) : Apart m' := by
  unfold Apart
  rw [hqueued, hrefused]
  exact h

theorem onQueued_apart {m m' : MirrorState} {q : MirrorQueued} (h : onQueued m q = .ok m') (hm : Apart m) :
    Apart m' := by
  simp only [onQueued, bind_eq_ok] at h
  obtain ⟨_, -, h⟩ := h
  split at h
  · simp only [bind_eq_ok, pure_eq_ok] at h
    obtain ⟨_, -, rfl⟩ := h
    exact hm
  · simp only [bind_eq_ok, pure_eq_ok] at h
    obtain ⟨_, hcheck, rfl⟩ := h
    intro id hid
    dsimp only at hid ⊢
    rw [foldl_put_get] at hid
    split at hid
    · rename_i hmem
      obtain ⟨a, ha, rfl⟩ := List.mem_map.mp hmem
      have hone := forM_ok hcheck a ha
      unfold checkAllocation at hone
      split at hone
      · cases hone
      · rw [refuseIf_eq_ok] at hone
        simpa [OMap.contains] using hone
    · exact hm id hid

theorem onRefused_apart {m m' : MirrorState} {r : MirrorRefused} (h : onRefused m r = .ok m') (hm : Apart m) :
    Apart m' := by
  simp only [onRefused, bind_eq_ok] at h
  obtain ⟨_, -, h⟩ := h
  split at h
  · cases h
  · rename_i hnone
    split at h <;> cases h
    · exact hm
    · intro id hid
      dsimp only at hid ⊢
      rw [OMap.get_put, if_neg]
      · exact hm id hid
      · rintro rfl
        rw [hnone] at hid
        cases hid

theorem applyEvent_apart {st st' : AccountState} {e : Event} (h : applyEvent A st e = .ok st')
    (hm : Apart st.mirror) : Apart st'.mirror := by
  simp only [applyEvent, bind_eq_ok, pure_eq_ok] at h
  obtain ⟨st₁, h, rfl⟩ := h
  rcases dispatch_mirror h with h | ⟨q, -, h⟩ | ⟨r, -, h⟩ | ⟨a, -, h⟩ | ⟨f, -, h⟩
  · dsimp only
    rw [h]
    exact hm
  · exact onQueued_apart h hm
  · exact onRefused_apart h hm
  · simp only [onAck, bind_eq_ok, pure_eq_ok] at h
    obtain ⟨_, -, t, -, _, -, hm'⟩ := h
    exact hm.same (by rw [← hm']) (by rw [← hm'])
  · simp only [onMirrorFill, bind_eq_ok] at h
    obtain ⟨_, -, t, -, _, -, _, -, _, -, h⟩ := h
    split at h
    · simp only [bind_eq_ok, pure_eq_ok] at h
      obtain ⟨_, -, hm'⟩ := h
      exact hm' ▸ hm
    · simp only [bind_eq_ok, pure_eq_ok] at h
      obtain ⟨_, -, _, -, _, -, _, -, ab, -, hm'⟩ := h
      exact hm.same (by rw [← hm']) (by rw [← hm'])

theorem writes_apart : Writes A venue (fun _ => True)
    fun l l' => Apart (l.mirror venue) → Apart (l'.mirror venue) where
  refl _ := id
  trans h h' := h' ∘ h
  write := by
    intro acc acc' e _ h hm
    rcases write_ok h with ⟨-, -, hsame⟩ | ⟨row, hrow⟩
    · exact hsame ▸ hm
    by_cases haccount : row.account = accountFor venue
    · have happlied := hrow.applied
      rw [haccount] at happlied
      exact applyEvent_apart happlied hm
    · rw [hrow.mirror_other haccount]
      exact hm
  ours _ := trivial

end TradeEngine.Tos.Session
