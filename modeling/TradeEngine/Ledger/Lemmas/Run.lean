import TradeEngine.Ledger.Lemmas.Exact
import TradeEngine.Ledger.Lemmas.Lifecycle

/-!
# Whole logs

The state of an account in a folded log is the run of that account's own events, so an invariant of
one event is an invariant of every accepted log.
-/

namespace TradeEngine

open Lib

variable {A : Arith}

theorem ordered_perm (events : List Event) : (ordered events).Perm events := by
  unfold ordered
  split
  · exact List.perm_insertionSort _ _
  · exact .refl _

theorem foldSteps_get {events : List Event} {s s' : States}
    (h : events.foldlM (foldStep A) s = .ok s') (a : String) :
    (events.filter (·.account = a)).foldlM (applyEvent A) ((s.get a).getD (.new a)) =
      .ok ((s'.get a).getD (.new a)) := by
  induction events generalizing s with
  | nil => cases h; rfl
  | cons e events ih =>
      simp only [List.foldlM_cons, bind_eq_ok] at h
      obtain ⟨s₁, hs₁, h⟩ := h
      simp only [foldStep, bind_eq_ok, pure_eq_ok] at hs₁
      obtain ⟨st, hst, rfl⟩ := hs₁
      have hrest := ih h
      by_cases he : e.account = a
      · subst he
        rw [OMap.get_put_self, Option.getD_some] at hrest
        simp only [List.filter_cons, decide_true, if_true, List.foldlM_cons, bind_eq_ok]
        exact ⟨st, hst, hrest⟩
      · rw [OMap.get_put_ne _ _ (fun hc => he hc.symm)] at hrest
        simpa [List.filter_cons, he] using hrest

/-- An account's folded state is the run of its own events, in order. -/
theorem fold_get {events : List Event} {states : States} (h : fold A events = .ok states)
    (a : String) :
    ((ordered events).filter (·.account = a)).foldlM (applyEvent A) (.new a) =
      .ok ((states.get a).getD (.new a)) := by
  simpa using foldSteps_get h a

/-! ## The books over a run -/

/-- What an event pays in or out. -/
def Event.cashFlow (e : Event) : ℚ :=
  match e.payload with
  | .cashFlow c => c.amount.val
  | _ => 0

theorem dispatch_balanced {flows : ℚ} {st st' : AccountState} {e : Event}
    (h : dispatch A.exact st e = .ok st') (hb : Balanced flows st) :
    Balanced (flows + e.cashFlow) st' := by
  have hsame : e.cashFlow = 0 → SameBooks st st' → Balanced (flows + e.cashFlow) st' := by
    intro h0 hs
    rw [h0, add_zero]
    exact hs.balanced hb
  unfold dispatch at h
  split at h
  case h_1 hp =>
    split at h
    · cases h; exact hsame (by simp [Event.cashFlow, hp]) ⟨rfl, rfl, rfl⟩
    · simp at h
  case h_2 hp => cases h; exact hsame (by simp [Event.cashFlow, hp]) ⟨rfl, rfl, rfl⟩
  case h_3 hp => exact hsame (by simp [Event.cashFlow, hp]) (onOrdersCreated_books h)
  case h_4 hp => cases h; exact hsame (by simp [Event.cashFlow, hp]) ⟨rfl, rfl, rfl⟩
  case h_5 hp => exact hsame (by simp [Event.cashFlow, hp]) (onOrderSubmitted_books h)
  case h_6 hp => exact hsame (by simp [Event.cashFlow, hp]) (onOrderUpdated_books h)
  case h_7 hp =>
    split at h
    · exact hsame (by simp [Event.cashFlow, hp]) (onOrderState_books h)
    · simp only [bind_eq_ok, pure_eq_ok] at h
      obtain ⟨_, -, rfl⟩ := h
      exact hsame (by simp [Event.cashFlow, hp]) ⟨rfl, rfl, rfl⟩
  case h_8 hp =>
    simp only [bind_eq_ok, pure_eq_ok] at h
    obtain ⟨_, -, rfl⟩ := h
    exact hsame (by simp [Event.cashFlow, hp]) ⟨rfl, rfl, rfl⟩
  case h_9 hp =>
    have h0 : e.cashFlow = 0 := by simp [Event.cashFlow, hp]
    rw [h0, add_zero]
    exact onFill_balanced hb h
  case h_10 c hp =>
    simp only [bind_eq_ok, pure_eq_ok] at h
    obtain ⟨cash, hcash, rfl⟩ := h
    refine ⟨hb.positions, ?_⟩
    simp only [Event.cashFlow, hp]
    rw [Ops.exact_add hcash, hb.identity]
    ring
  case h_11 hp => cases h; exact hsame (by simp [Event.cashFlow, hp]) ⟨rfl, rfl, rfl⟩
  case h_12 hp => cases h; exact hsame (by simp [Event.cashFlow, hp]) ⟨rfl, rfl, rfl⟩
  case h_13 hp => exact hsame (by simp [Event.cashFlow, hp]) (onHaltCleared_books h)
  case h_14 hp => cases h; exact hsame (by simp [Event.cashFlow, hp]) (.refl st)
  case h_15 hp =>
    have h0 : e.cashFlow = 0 := by simp [Event.cashFlow, hp]
    rw [h0, add_zero]
    exact onLifecycle_balanced hb h
  case h_16 hp => exact hsame (by simp [Event.cashFlow, hp]) (mirrorStep_books h)
  case h_17 hp => exact hsame (by simp [Event.cashFlow, hp]) (mirrorStep_books h)
  case h_18 hp => exact hsame (by simp [Event.cashFlow, hp]) (mirrorStep_books h)
  case h_19 hp => exact hsame (by simp [Event.cashFlow, hp]) (mirrorStep_books h)
  case h_20 => simp at h

theorem applyEvent_balanced {flows : ℚ} {st st' : AccountState} {e : Event}
    (h : applyEvent A.exact st e = .ok st') (hb : Balanced flows st) :
    Balanced (flows + e.cashFlow) st' := by
  simp only [applyEvent, bind_eq_ok, pure_eq_ok] at h
  obtain ⟨st₁, h₁, rfl⟩ := h
  have hsame : SameBooks st₁ { st₁ with lastSeq := e.seq.getD st₁.lastSeq } := ⟨rfl, rfl, rfl⟩
  exact hsame.balanced (dispatch_balanced h₁ hb)

theorem run_balanced {flows : ℚ} {es : List Event} {st st' : AccountState}
    (h : es.foldlM (applyEvent A.exact) st = .ok st') (hb : Balanced flows st) :
    Balanced (flows + (es.map Event.cashFlow).sum) st' := by
  induction es generalizing flows st with
  | nil => cases h; simpa using hb
  | cons e es ih =>
      simp only [List.foldlM_cons, bind_eq_ok] at h
      obtain ⟨st₁, h₁, h⟩ := h
      have := ih h (applyEvent_balanced h₁ hb)
      simpa [add_assoc] using this

/-- The account's deposits, withdrawals, interest and other flows over a log. -/
def cashFlows (events : List Event) (account : String) : ℚ :=
  ((events.filter (·.account = account)).map Event.cashFlow).sum

theorem fold_balanced {events : List Event} {states : States} {account : String}
    {st : AccountState} (hx : ExactRun A events) (h : fold A events = .ok states)
    (hst : states.get account = some st) : Balanced (cashFlows events account) st := by
  have hrun := fold_get (hx.fold_eq h) account
  rw [hst, Option.getD_some] at hrun
  have hb := run_balanced hrun (.new account)
  have hperm : (((ordered events).filter (·.account = account)).map Event.cashFlow).sum =
      cashFlows events account := (((ordered_perm events).filter _).map _).sum_eq
  rwa [zero_add, hperm] at hb

end TradeEngine
