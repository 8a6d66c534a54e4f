import TradeEngine.Sim.Lemmas.Requests
import TradeEngine.Sim.Lemmas.SnapshotCalls

/-!
# Conservation at the simulated venue

Statements about every sequence of calls on a fresh book, in the arithmetic the program runs on.
-/

namespace TradeEngine.Sim

open Lib

/-- The orders, the fills and the positions of a book agree. -/
structure Conserved (b : Book) : Prop where
  filled_eq : ∀ id w, b.orders.get id = some w → w.filled.val = b.filledOf id
  filled_le : ∀ id w, b.orders.get id = some w → w.filled.val ≤ w.order.quantity.val
  filled_iff : ∀ id w, b.orders.get id = some w →
    (w.state = .filled ↔ w.filled.val = w.order.quantity.val)
  fillIds : (b.fills.map (·.fillId)).Nodup
  position : ∀ i : Instrument, b.positionOf i.hk = b.netOf i.hk
  exits_close : ∀ id w p, b.orders.get id = some w → w.order.parent = some p →
    ∃ e, b.orders.get p = some e ∧ e.order.instr = w.order.instr ∧ e.order.side ≠ w.order.side
  exits_le : ∀ p e, b.orders.get p = some e → b.exited p ≤ e.filled.val

theorem Book.Ok.conserved {b : Book} (h : b.Ok) : Conserved b where
  filled_eq := h.filled
  filled_le := h.le
  filled_iff := h.done
  fillIds := h.fillIds
  position i := h.position i.hk
  exits_close := h.entries
  exits_le := h.exits

theorem newWithVenue_ok {account : String} {bps : Money} {ticks : Nat} {venue : VenueCalendar}
    {b : Book} (h : Book.newWithVenue account bps ticks venue = .ok b) : b.Ok := by
  simp only [Book.newWithVenue, bind_eq_ok, pure_eq_ok] at h
  obtain ⟨_, -, _, -, rfl⟩ := h
  constructor
  case fillIds => exact List.nodup_nil
  case position =>
    intro hk
    simp [Book.positionOf, Book.netOf]
  all_goals simp

/-- In every sequence of calls on a fresh book in which no call errs and no sum or difference of
quantities is rounded, orders, fills and positions agree. -/
theorem run_conserved (D : RustDecimal) (cal : Calendars) {account : String} {bps : Money}
    {ticks : Nat} {venue : VenueCalendar} {b b' : Book} {calls : List Call}
    (hnew : Book.newWithVenue account bps ticks venue = .ok b)
    (hrun : run (.code D) cal b calls = .ok b')
    (hexact : (run (Arith.exact (.code D)) cal b calls).isOk = true) : Conserved b' := by
  cases h : run (Arith.exact (.code D)) cal b calls with
  | error e =>
      rw [h] at hexact
      cases hexact
  | ok c =>
      have hcode := run_refuses (Arith.exact_le (.code D)) cal b calls c h
      rw [hrun] at hcode
      cases hcode
      exact (run_ok (newWithVenue_ok hnew) h).conserved

namespace Sample

def decimal : RustDecimal := ⟨fun a b => (a.add b).toOption, fun a b => (a.sub b).toOption⟩

def monday : NaiveDate := .ymd 2026 3 2

/-- A minute of that day, in UTC. -/
def minute (n : Nat) : Ts := ⟨⟨monday, n * 60, 0, 0⟩, ""⟩

/-- Every day a session from 14:30 to 21:00 UTC. -/
def calendars : Calendars where
  nyDate t := .ok t.dt.date
  isSession _ := .ok true
  sessionOpen date := .ok ⟨⟨date, 870 * 60, 0, 0⟩, ""⟩
  sessionClose date := .ok ⟨⟨date, 1260 * 60, 0, 0⟩, ""⟩
  nextSession date := .ok date.next
  rollNext date := .ok date.next
  forRoot _ := err .value "unknown root"

def units (n : Nat) : Money := .ofNat n

def spy : Instrument := .single (.equity "SPY")

/-- A day order of the account. -/
def order (id : String) (otype : OrderType) (side : Side) (n : Nat) (limit stop : Option Money)
    (parent : Option String) (hpos : 0 < (units n).mantissa := by decide) : VOrder :=
  ⟨id, spy, otype, side, units n, minute 869, .day, limit, stop, none,
    [⟨id ++ "-s", "acct", units n⟩], parent, parent, hpos⟩

def bar (at' opening high low : Nat) : Bar :=
  ⟨spy, minute at', units opening, units high, units low, units opening, units 1, minute at'⟩

def clock : Clock := fun _ => .ok (minute 870)

/-- Ten shares bought with a stop and two targets; the entry fills, the first target fills, the stop
is moved up and takes the rest. -/
def bracketCalls : List Call :=
  [.connect,
   .submit (order "e" .market .buy 10 none none none) clock,
   .processBar (some (bar 870 100 101 99)),
   .submit (order "s" .stop .sell 10 none (some (units 90)) (some "e")) clock,
   .submit (order "t1" .limit .sell 4 (some (units 105)) none (some "e")) clock,
   .submit (order "t2" .limit .sell 6 (some (units 120)) none (some "e")) clock,
   .processBar (some (bar 871 101 106 100)),
   .replace "s" ⟨some (units 6), none, some (units 100)⟩ clock,
   .cancel "t2" clock,
   .processBar (some (bar 872 101 102 99))]

/-- Two buys whose sum has 29 digits. -/
def wideCalls : List Call :=
  [.connect,
   .submit (order "a" .market .buy (9 * 10 ^ 27) none none none) clock,
   .submit (order "b" .market .buy (9 * 10 ^ 27 + 1) none none none) clock,
   .processBar (some (bar 870 1 1 1))]

end Sample

theorem run_conserved_bracket : ∃ b b', Book.newWithVenue "acct" .zero 0 .xnys = .ok b ∧
    run (.code Sample.decimal) Sample.calendars b Sample.bracketCalls = .ok b' ∧
    b'.fills.length = 3 ∧ Conserved b' := by
  have hrun : ((Book.newWithVenue "acct" .zero 0 .xnys).toOption.bind fun b =>
      (run (Arith.exact (.code Sample.decimal)) Sample.calendars b Sample.bracketCalls).toOption).any
        (·.fills.length = 3) = true := by decide +kernel
  rw [Option.any_eq_true] at hrun
  obtain ⟨b', hb', hfills⟩ := hrun
  obtain ⟨b, hb, hb'⟩ := Option.bind_eq_some_iff.mp hb'
  rw [toOption_eq_some] at hb hb'
  have hcode := run_refuses (Arith.exact_le _) Sample.calendars b Sample.bracketCalls b' hb'
  refine ⟨b, b', hb, hcode, of_decide_eq_true hfills,
    run_conserved Sample.decimal Sample.calendars hb hcode ?_⟩
  rw [hb']
  rfl

/-- Two fills of 28 digits each add up to a position that has lost a share. -/
theorem wide_position_loses_a_share : ∃ b b', Book.newWithVenue "acct" .zero 0 .xnys = .ok b ∧
    run (.code Sample.decimal) Sample.calendars b Sample.wideCalls = .ok b' ∧
    b'.positionOf Sample.spy.hk = 18 * 10 ^ 27 ∧ b'.netOf Sample.spy.hk = 18 * 10 ^ 27 + 1 ∧
    ¬ Conserved b' := by
  have hrun : ((Book.newWithVenue "acct" .zero 0 .xnys).toOption.bind fun b =>
      (run (.code Sample.decimal) Sample.calendars b Sample.wideCalls).toOption).any
        (fun b => b.positionOf Sample.spy.hk = 18 * 10 ^ 27 ∧
          b.netOf Sample.spy.hk = 18 * 10 ^ 27 + 1) = true := by decide +kernel
  rw [Option.any_eq_true] at hrun
  obtain ⟨b', hb', hvals⟩ := hrun
  obtain ⟨b, hb, hb'⟩ := Option.bind_eq_some_iff.mp hb'
  rw [toOption_eq_some] at hb hb'
  obtain ⟨hposition, hnet⟩ := of_decide_eq_true hvals
  refine ⟨b, b', hb, hb', hposition, hnet, fun hc => ?_⟩
  have heq := hc.position Sample.spy
  rw [hposition, hnet] at heq
  norm_num at heq

/-! ## Limits and stops -/

/-- After any calls, the fills of the next one keep to their limits and come after their orders, or
inside the bar of their entry; and where a bar reaches a stop of a group, the stop is what fills. -/
theorem fills_are_protected (A : Arith) (cal : Calendars) {accountId : String} {bps : Money} {ticks : Nat}
    {venue : VenueCalendar} {b : Book} (hnew : Book.newWithVenue accountId bps ticks venue = .ok b)
    (rs : List Request) (r : Request) :
    ∃ new, (after A cal (afterAll A cal b rs) r).fills = (afterAll A cal b rs).fills ++ new ∧
      (∀ f ∈ new, f ∈ r.handed ∨ Made (after A cal (afterAll A cal b rs) r) f) ∧
      ∀ bar, r = .processBar (some bar) → StopFirst A cal (afterAll A cal b rs) bar new := by
  have hb := afterAll_tidy A cal (newWithVenue_tidy hnew) rs
  obtain ⟨-, new, hfills, hmade⟩ := after_leaves A cal hb r
  refine ⟨new, hfills, hmade, ?_⟩
  rintro bar rfl
  exact processBar_stopFirst hb bar hfills

namespace Sample

def decimals : Arith := .code decimal

/-- Ten shares bought, with a stop at 90 and a target at 105. -/
def bracketRequests : List Request :=
  [.connect clock,
   .submit (order "e" .market .buy 10 none none none) clock,
   .processBar (some (bar 870 100 101 99)),
   .submit (order "s" .stop .sell 10 none (some (units 90)) (some "e")) clock,
   .submit (order "t" .limit .sell 10 (some (units 105)) none (some "e")) clock]

/-- A bar that reaches the stop and the target. -/
def wideBar : Bar := bar 871 101 106 89

end Sample

open TradeEngine.Sim.Sample in
theorem bracket_fills_protected : ∃ b, Book.newWithVenue "acct" .zero 0 .xnys = .ok b ∧
    (after decimals calendars (afterAll decimals calendars b bracketRequests)
      (.processBar (some wideBar))).fills.map (·.orderId) = ["e", "s"] ∧
    ∃ new, (after decimals calendars (afterAll decimals calendars b bracketRequests)
        (.processBar (some wideBar))).fills = (afterAll decimals calendars b bracketRequests).fills ++ new ∧
      StopFirst decimals calendars (afterAll decimals calendars b bracketRequests) wideBar new := by
  have hrun : (Book.newWithVenue "acct" .zero 0 .xnys).toOption.any (fun b =>
      (after decimals calendars (afterAll decimals calendars b bracketRequests)
        (.processBar (some wideBar))).fills.map (·.orderId) = ["e", "s"]) = true := by decide +kernel
  obtain ⟨b, hb, hfills⟩ := (Option.any_eq_true _ _).mp hrun
  have hnew := toOption_eq_some.mp hb
  obtain ⟨new, hadded, -, hstops⟩ := fills_are_protected decimals calendars hnew bracketRequests
    (.processBar (some wideBar))
  exact ⟨b, hnew, of_decide_eq_true hfills, new, hadded, hstops wideBar rfl⟩

/-! ## Refused market data -/

/-- A bar that is refused: by a check before it is matched, which leaves the book alone, or while it is
matched. The step then stops where it was refused and keeps what it has done. -/
def RefusedBar (A : Arith) (cal : Calendars) (b : Book) (bar? : Option Bar) (e : LErr) (b' : Book) : Prop :=
  Act.openBar cal b bar? = .error e ∧ b' = b ∨
    ∃ bar choices new, Act.openBar cal b bar? = .ok (some bar) ∧ CutOff A cal b bar e b' ∧
      Worked A cal b bar choices new b' ∧ ∀ c ∈ choices, Eligible cal b bar c

def RefusedSnapshot (A : Arith) (cal : Calendars) (v : Snapshot.Venue) (s : Snapshot.Snap) (clock : Clock)
    (e : LErr) (v' : Snapshot.Venue) : Prop :=
  (Snapshot.Act.openSnapshot s clock v = .error e ∨ clock 1 = .error e) ∧ v' = v ∨
    ∃ now new, Snapshot.Act.openSnapshot s clock v = .ok () ∧ clock 1 = .ok now ∧
      Snapshot.CutOff A cal v s now e v' ∧ Snapshot.Worked cal v s now new v'

/-- After any calls, a step of market data that is refused leaves the work it has done, and no other. -/
theorem refused_steps_leave_their_work (A : Arith) (cal : Calendars) {accountId : String} {bps : Money}
    {ticks : Nat} {venue : VenueCalendar} {fraction fee slippage : Option Money} {stale : Option (Int → Bool)}
    {b : Book} {v : Snapshot.Venue} (hb : Book.newWithVenue accountId bps ticks venue = .ok b)
    (hv : Snapshot.new accountId fraction fee slippage stale = .ok v) :
    (∀ rs bar? e b', Act.processBar A cal bar? (afterAll A cal b rs) = (.error e, b') →
      RefusedBar A cal (afterAll A cal b rs) bar? e b') ∧
    ∀ rs s clock e v', Snapshot.Act.processSnapshot A cal s clock (Snapshot.afterAll A cal v rs) = (.error e, v') →
      RefusedSnapshot A cal (Snapshot.afterAll A cal v rs) s clock e v' := by
  constructor
  · intro rs bar? e b' hrun
    have htidy := afterAll_tidy A cal (newWithVenue_tidy hb) rs
    rcases (processBar_leaves htidy bar?).error hrun with hopen | ⟨bar, new, hopened, hmatched⟩
    · exact Or.inl hopen
    · obtain ⟨choices, hworked, heligible⟩ := hmatched.worked
      rcases processBar_cutOff hrun with ⟨hrefused, -⟩ | ⟨bar', hopened', hcut⟩
      · rw [hopened] at hrefused
        cases hrefused
      · rw [hopened] at hopened'
        cases hopened'
        exact Or.inr ⟨bar, choices, new, hopened, hcut, hworked, heligible⟩
  · intro rs s clock e v' hrun
    have htidy := Snapshot.afterAll_tidy A cal (Snapshot.new_tidy hv) rs
    rcases (Snapshot.processSnapshot_leaves htidy s clock).error hrun with hopen | ⟨now, new, hopened, hnow, hworked⟩
    · exact Or.inl hopen
    · rcases Snapshot.processSnapshot_cutOff hrun with ⟨hrefused, -⟩ | ⟨now', hnow', hcut⟩
      · rw [hopened, hnow] at hrefused
        rcases hrefused with hrefused | hrefused <;> cases hrefused
      · rw [hnow] at hnow'
        cases hnow'
        exact Or.inr ⟨now, new, hopened, hnow, hcut, hworked⟩

namespace Sample

/-- Two market orders at a slippage that takes a sale down to nothing. -/
def pairRequests : List Request :=
  [.connect clock, .submit (order "a" .market .buy 1 none none none) clock,
   .submit (order "z" .market .sell 1 none none none) clock]

def openingBar : Bar := bar 870 100 101 99

/-- A snapshot of the shares alone. -/
def shares (at' : Ts) : Snapshot.Snap := ⟨"SPY", at', units 100, fun _ => .ok none⟩

def pairCalls : List Snapshot.Request :=
  [.connect clock, .submit (order "a" .market .buy 1 none none none) clock,
   .submit (order "z" .market .sell 1 none none none) clock]

end Sample

open TradeEngine.Sim.Sample in
theorem refused_pair_leaves_its_work : ∃ b v, Book.newWithVenue "acct" (units 10000) 0 .xnys = .ok b ∧
    Snapshot.new "acct" (some .zero) (some .zero) (some (units 10000)) (some fun _ => false) = .ok v ∧
    ∃ e b', Act.processBar decimals calendars (some openingBar) (afterAll decimals calendars b pairRequests) =
        (.error e, b') ∧
      RefusedBar decimals calendars (afterAll decimals calendars b pairRequests) (some openingBar) e b' := by
  have hrun : (Book.newWithVenue "acct" (units 10000) 0 .xnys).toOption.any (fun b =>
      (Act.processBar decimals calendars (some openingBar)
        (afterAll decimals calendars b pairRequests)).1.toOption.isNone) = true := by decide +kernel
  obtain ⟨b, hb, hrefused⟩ := (Option.any_eq_true _ _).mp hrun
  obtain ⟨e, he⟩ := toOption_isNone.mp hrefused
  have hbook := toOption_eq_some.mp hb
  have hvenue : Snapshot.new "acct" (some .zero) (some .zero) (some (units 10000)) (some fun _ => false) =
      .ok ⟨"acct", .zero, .zero, units 10000, fun _ => false, false, .empty, [], .empty, .empty, .empty⟩ := rfl
  refine ⟨b, _, hbook, hvenue, e, _, Prog.returned he, ?_⟩
  exact (refused_steps_leave_their_work decimals calendars hbook hvenue).1 pairRequests (some openingBar) e _
    (Prog.returned he)

open TradeEngine.Sim.Sample in
/-- The purchase of a refused step stays, in both venues. -/
theorem refused_steps_keep_fills :
    (∃ b b' e, Book.newWithVenue "acct" (units 10000) 0 .xnys = .ok b ∧
      Act.processBar decimals calendars (some openingBar) (afterAll decimals calendars b pairRequests) =
        (.error e, b') ∧
      (afterAll decimals calendars b pairRequests).fills = [] ∧ b'.fills.map (·.orderId) = ["a"]) ∧
    ∃ v v' e, Snapshot.new "acct" (some .zero) (some .zero) (some (units 10000)) (some fun _ => false) = .ok v ∧
      Snapshot.Act.processSnapshot decimals calendars (shares (minute 870)) clock
        (Snapshot.afterAll decimals calendars v pairCalls) = (.error e, v') ∧
      (Snapshot.afterAll decimals calendars v pairCalls).fills = [] ∧ v'.fills.map (·.orderId) = ["a"] := by
  constructor
  · have hrun : (Book.newWithVenue "acct" (units 10000) 0 .xnys).toOption.any (fun b =>
        (Act.processBar decimals calendars (some openingBar)
            (afterAll decimals calendars b pairRequests)).1.toOption.isNone &&
          (afterAll decimals calendars b pairRequests).fills = [] &&
          (Act.processBar decimals calendars (some openingBar)
            (afterAll decimals calendars b pairRequests)).2.fills.map (·.orderId) = ["a"]) = true := by
      decide +kernel
    obtain ⟨b, hb, hvals⟩ := (Option.any_eq_true _ _).mp hrun
    simp only [Bool.and_eq_true, decide_eq_true_eq] at hvals
    obtain ⟨⟨herror, hbefore⟩, hafter⟩ := hvals
    obtain ⟨e, he⟩ := toOption_isNone.mp herror
    exact ⟨b, _, e, toOption_eq_some.mp hb, Prog.returned he, hbefore, hafter⟩
  · have hrun : (Snapshot.new "acct" (some .zero) (some .zero) (some (units 10000))
        (some fun _ => false)).toOption.any (fun v =>
        (Snapshot.Act.processSnapshot decimals calendars (shares (minute 870)) clock
            (Snapshot.afterAll decimals calendars v pairCalls)).1.toOption.isNone &&
          (Snapshot.afterAll decimals calendars v pairCalls).fills = [] &&
          (Snapshot.Act.processSnapshot decimals calendars (shares (minute 870)) clock
            (Snapshot.afterAll decimals calendars v pairCalls)).2.fills.map (·.orderId) = ["a"]) = true := by
      decide +kernel
    obtain ⟨v, hv, hvals⟩ := (Option.any_eq_true _ _).mp hrun
    simp only [Bool.and_eq_true, decide_eq_true_eq] at hvals
    obtain ⟨⟨herror, hbefore⟩, hafter⟩ := hvals
    obtain ⟨e, he⟩ := toOption_isNone.mp herror
    exact ⟨v, _, e, toOption_eq_some.mp hv, Prog.returned he, hbefore, hafter⟩

/-! ## DAY orders -/

/-- Bars fill DAY orders before their close, and once the last bar of the session has been seen and the
clock is past the close, the next call that reads it ends them. -/
structure BarsEndDay (A : Arith) (cal : Calendars) (b : Book) : Prop where
  fills : ∀ bar?, FilledInSession cal b (after A cal b (.processBar bar?))
  expires : ∀ id w now r clock b', b.orders.get id = some w → working w.state = true → Over cal b w now →
    r.clock? = some clock → clock 0 = .ok now → perform A cal r b = (.ok (), b') →
    ∃ w', b'.orders.get id = some w' ∧ w'.state = .expired

/-- Once a DAY order is known not to have filled in its session, no later snapshot fills it at or after
the close, and past the close the next call that reads the clock ends it. -/
structure SnapshotsEndDay (A : Arith) (cal : Calendars) (v : Snapshot.Venue) : Prop where
  fills : ∀ id w close rs r, v.orders.get id = some w → Snapshot.Proven cal v w.order close →
    (∀ q ∈ r :: rs, q.Steady) → ∃ new,
      (Snapshot.after A cal (Snapshot.afterAll A cal v rs) r).fills =
        (Snapshot.afterAll A cal v rs).fills ++ new ∧
      ∀ f ∈ new, f.orderId = id → f.filledAt.lt close = true
  expires : ∀ id w close now r v', v.orders.get id = some w → working w.state = true →
    Snapshot.Proven cal v w.order close → now.ge close = true → r.instant? = some (.ok now) →
    Snapshot.perform A cal r v = (.ok (), v') → ∃ w', v'.orders.get id = some w' ∧ w'.state = .expired

theorem day_orders_end (A : Arith) (cal : Calendars) {accountId : String} {bps : Money} {ticks : Nat}
    {venue : VenueCalendar} {fraction fee slippage : Option Money} {stale : Option (Int → Bool)}
    {b : Book} {v : Snapshot.Venue} (hb : Book.newWithVenue accountId bps ticks venue = .ok b)
    (hv : Snapshot.new accountId fraction fee slippage stale = .ok v) :
    (∀ rs, BarsEndDay A cal (afterAll A cal b rs)) ∧ ∀ rs, SnapshotsEndDay A cal (Snapshot.afterAll A cal v rs) := by
  constructor
  · intro rs
    have htidy := afterAll_tidy A cal (newWithVenue_tidy hb) rs
    refine ⟨fun bar? => processBar_in_session htidy bar?, ?_⟩
    intro id w now r clock b' hw hlive hover hclock hnow hrun
    exact perform_expires htidy hw hlive hover hclock hnow hrun
  · intro rs
    have htidy := Snapshot.afterAll_tidy A cal (Snapshot.new_tidy hv) rs
    constructor
    · intro id w close rs' r hw hproven hsteady
      obtain ⟨hr, hrs⟩ := List.forall_mem_cons.mp hsteady
      have hsettled := Snapshot.afterAll_settled A htidy ⟨w, hw, rfl, Or.inr hproven⟩ hrs
      exact (Snapshot.after_holds A (Snapshot.afterAll_tidy A cal htidy rs') hsettled hr).2
    · intro id w close now r v' hw hlive hproven hpast hinstant hrun
      exact Snapshot.perform_expires htidy hw hlive hproven hinstant hpast hrun

namespace Sample

/-- A minute of a day of that month. -/
def dayMinute (day n : Nat) : Ts := ⟨⟨.ymd 2026 3 day, n * 60, 0, 0⟩, ""⟩

/-- A minute past the close. -/
def lateClock : Clock := fun _ => .ok (minute 1261)

/-- A purchase too low to fill, and the opening bar. -/
def openingRequests : List Request :=
  [.connect clock, .submit (order "l" .limit .buy 1 (some (units 1)) none none) clock,
   .processBar (some openingBar)]

/-- A session of two minutes. -/
def shortCalendars : Calendars :=
  { calendars with sessionClose := fun date => .ok ⟨⟨date, 872 * 60, 0, 0⟩, ""⟩ }

def shortRequests : List Request := openingRequests ++ [.processBar (some (bar 871 100 101 99))]

/-- A purchase too low to fill, and a snapshot of the short session. -/
def shortCalls : List Snapshot.Request :=
  [.connect clock, .submit (order "l" .limit .buy 1 (some (units 1)) none none) clock,
   .processSnapshot (shares (minute 871)) fun _ => .ok (minute 871)]

/-- A stop dated the day before, submitted into the bar that filled its entry. -/
def backdatedRequests : List Request :=
  [.connect clock, .submit (order "e" .market .buy 10 none none none) clock, .processBar (some openingBar),
   .submit { order "s" .stop .sell 10 none (some (units 99)) (some "e") with submittedAt := dayMinute 1 900 } clock]

def nextDay : Clock := fun _ => .ok (dayMinute 3 950)

/-- A day without a snapshot, then one. -/
def unseenCalls : List Snapshot.Request :=
  [.connect clock, .submit (order "a" .market .buy 1 none none none) clock,
   .processSnapshot (shares (dayMinute 3 945)) nextDay]

end Sample

open TradeEngine.Sim.Sample in
/-- Two bars make a session, and so does a snapshot; asked at its close, either venue has the order expired. -/
theorem short_day_ends : ∃ b v, Book.newWithVenue "acct" .zero 0 .xnys = .ok b ∧
    Snapshot.new "acct" (some .zero) (some .zero) (some .zero) (some fun _ => false) = .ok v ∧
    (∃ w v', Snapshot.perform decimals shortCalendars (.orders (.ok (some (minute 0))) fun _ => .ok (minute 872))
        (Snapshot.afterAll decimals shortCalendars v shortCalls) = (.ok (), v') ∧
      v'.orders.get "l" = some w ∧ w.state = .expired) ∧
    ∃ w b', perform decimals shortCalendars (.orders (.ok (minute 0)) fun _ => .ok (minute 872))
        (afterAll decimals shortCalendars b shortRequests) = (.ok (), b') ∧
      b'.orders.get "l" = some w ∧ w.state = .expired := by
  have hrun : (Book.newWithVenue "acct" .zero 0 .xnys).toOption.any (fun b =>
      (perform decimals shortCalendars (.orders (.ok (minute 0)) fun _ => .ok (minute 872))
          (afterAll decimals shortCalendars b shortRequests)).1.toOption = some () ∧
        ((afterAll decimals shortCalendars b shortRequests).orders.get "l").any (fun w =>
          working w.state = true ∧ w.order.tif = .day ∧ w.order.submittedAt.lt (minute 872) = true ∧
          (afterAll decimals shortCalendars b shortRequests).expiryInstant shortCalendars w.order =
            .ok (some (minute 872)) ∧
          ((minute 872).addSeconds (-60)).toOption.any (fun last =>
            ((afterAll decimals shortCalendars b shortRequests).lastBars.get w.order.instr.hk).any
              fun bar => bar.ts.ge last) = true) = true) = true := by decide +kernel
  obtain ⟨b, hb, hvals⟩ := (Option.any_eq_true _ _).mp hrun
  obtain ⟨hreturned, horder⟩ := of_decide_eq_true hvals
  obtain ⟨w, hw, hfacts⟩ := (Option.any_eq_true _ _).mp horder
  obtain ⟨hlive, hday, hlater, hclose, hbars⟩ := of_decide_eq_true hfacts
  obtain ⟨last, hlast, hbar⟩ := (Option.any_eq_true _ _).mp hbars
  obtain ⟨bar, hget, hseen⟩ := (Option.any_eq_true _ _).mp hbar
  have hover : Over shortCalendars (afterAll decimals shortCalendars b shortRequests) w (minute 872) :=
    ⟨hday, hlater, minute 872, last, bar, hclose, by decide, toOption_eq_some.mp hlast, hget, hseen⟩
  have hbook := toOption_eq_some.mp hb
  have hsnapshots : (Snapshot.new "acct" (some .zero) (some .zero) (some .zero) (some fun _ => false)).toOption.any (fun v =>
      (Snapshot.perform decimals shortCalendars (.orders (.ok (some (minute 0))) fun _ => .ok (minute 872))
          (Snapshot.afterAll decimals shortCalendars v shortCalls)).1.toOption = some () ∧
        ((Snapshot.afterAll decimals shortCalendars v shortCalls).orders.get "l").any (fun w =>
          working w.state = true ∧ w.order.tif = .day ∧ Snapshot.closeOf shortCalendars w.order = .ok (minute 872) ∧
          (Snapshot.underlyingOf w.order.instr).toOption.any (fun u =>
            ((Snapshot.afterAll decimals shortCalendars v shortCalls).seen.get u).any fun seen =>
              w.order.submittedAt.le seen = true ∧ seen.le (minute 872) = true) = true) = true) = true := by decide +kernel
  obtain ⟨v, hv, hfound⟩ := (Option.any_eq_true _ _).mp hsnapshots
  obtain ⟨hasked, hfound⟩ := of_decide_eq_true hfound
  obtain ⟨s, hs, hfound⟩ := (Option.any_eq_true _ _).mp hfound
  obtain ⟨hworks, hdayOrder, hcloses, hfound⟩ := of_decide_eq_true hfound
  obtain ⟨u, hu, hfound⟩ := (Option.any_eq_true _ _).mp hfound
  obtain ⟨seen, hget, hproves⟩ := (Option.any_eq_true _ _).mp hfound
  have hproven : Snapshot.Proven shortCalendars (Snapshot.afterAll decimals shortCalendars v shortCalls) s.order (minute 872) :=
    ⟨hdayOrder, hcloses, u, seen, toOption_eq_some.mp hu, hget, of_decide_eq_true hproves⟩
  have hvenue := toOption_eq_some.mp hv
  have hends := day_orders_end decimals shortCalendars hbook hvenue
  have hran := Prog.returned (toOption_eq_some.mp hreturned)
  have hanswer := Prog.returned (toOption_eq_some.mp hasked)
  obtain ⟨w', hw', hexpired⟩ := (hends.1 shortRequests).expires "l" w (minute 872) _ _ _ hw hlive hover rfl rfl hran
  obtain ⟨s', hs', hlapsed⟩ := (hends.2 shortCalls).expires "l" s (minute 872) (minute 872) _ _ hs hworks hproven rfl rfl hanswer
  exact ⟨b, v, hbook, hvenue, ⟨s', _, hanswer, hs', hlapsed⟩, w', _, hran, hw', hexpired⟩

open TradeEngine.Sim.Sample in
/-- With the opening bar alone behind it, an order outlives its close; a stop dated back fills on its
entry's bar; and a session no snapshot covers leaves its orders to the next. -/
theorem day_orders_outlive_their_close :
    (∃ b b', Book.newWithVenue "acct" .zero 0 .xnys = .ok b ∧
      perform decimals calendars (.orders (.ok (minute 0)) lateClock)
        (afterAll decimals calendars b openingRequests) = (.ok (), b') ∧
      (b'.orders.get "l").any (fun w => w.state = .accepted ∧ w.order.tif = .day ∧
        b'.expiryInstant calendars w.order = .ok (some (minute 1260))) = true) ∧
    (∃ b, Book.newWithVenue "acct" .zero 0 .xnys = .ok b ∧
      (afterAll decimals calendars b backdatedRequests).fills.any (fun f => f.orderId = "s" ∧
        f.filledAt = minute 870) = true ∧
      ((afterAll decimals calendars b backdatedRequests).orders.get "s").any (fun w => w.order.tif = .day ∧
        calendars.daySession w.order.submittedAt = .ok (.ymd 2026 3 1)) = true) ∧
    ∃ v, Snapshot.new "acct" (some .zero) (some .zero) (some .zero) (some fun _ => false) = .ok v ∧
      (Snapshot.afterAll decimals calendars v unseenCalls).fills.any (fun f => f.orderId = "a" ∧
        f.filledAt = dayMinute 3 945) = true ∧
      ((Snapshot.afterAll decimals calendars v unseenCalls).orders.get "a").any (fun w => w.order.tif = .day ∧
        calendars.daySession w.order.submittedAt = .ok monday) = true := by
  refine ⟨?_, ?_, ?_⟩
  · have hrun : (Book.newWithVenue "acct" .zero 0 .xnys).toOption.any (fun b =>
        (perform decimals calendars (.orders (.ok (minute 0)) lateClock)
            (afterAll decimals calendars b openingRequests)).1.toOption = some () ∧
          ((perform decimals calendars (.orders (.ok (minute 0)) lateClock)
            (afterAll decimals calendars b openingRequests)).2.orders.get "l").any (fun w => w.state = .accepted ∧
              w.order.tif = .day ∧ (perform decimals calendars (.orders (.ok (minute 0)) lateClock)
                (afterAll decimals calendars b openingRequests)).2.expiryInstant calendars w.order =
                .ok (some (minute 1260))) = true) = true := by decide +kernel
    obtain ⟨b, hb, hvals⟩ := (Option.any_eq_true _ _).mp hrun
    obtain ⟨hreturned, hstate⟩ := of_decide_eq_true hvals
    exact ⟨b, _, toOption_eq_some.mp hb, Prog.returned (toOption_eq_some.mp hreturned), hstate⟩
  · have hrun : (Book.newWithVenue "acct" .zero 0 .xnys).toOption.any (fun b =>
        (afterAll decimals calendars b backdatedRequests).fills.any (fun f => f.orderId = "s" ∧
          f.filledAt = minute 870) = true ∧
        ((afterAll decimals calendars b backdatedRequests).orders.get "s").any (fun w => w.order.tif = .day ∧
          calendars.daySession w.order.submittedAt = .ok (.ymd 2026 3 1)) = true) = true := by decide +kernel
    obtain ⟨b, hb, hvals⟩ := (Option.any_eq_true _ _).mp hrun
    exact ⟨b, toOption_eq_some.mp hb, of_decide_eq_true hvals⟩
  · have hrun : (Snapshot.new "acct" (some .zero) (some .zero) (some .zero)
        (some fun _ => false)).toOption.any (fun v =>
        (Snapshot.afterAll decimals calendars v unseenCalls).fills.any (fun f => f.orderId = "a" ∧
          f.filledAt = dayMinute 3 945) = true ∧
        ((Snapshot.afterAll decimals calendars v unseenCalls).orders.get "a").any (fun w => w.order.tif = .day ∧
          calendars.daySession w.order.submittedAt = .ok monday) = true) = true := by decide +kernel
    obtain ⟨v, hv, hvals⟩ := (Option.any_eq_true _ _).mp hrun
    exact ⟨v, toOption_eq_some.mp hv, of_decide_eq_true hvals⟩

end TradeEngine.Sim
