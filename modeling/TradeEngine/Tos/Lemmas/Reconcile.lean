import TradeEngine.Ledger.Lemmas.Exact
import TradeEngine.Ledger.Lemmas.Keys
import TradeEngine.Tos.Lemmas.Netting
import TradeEngine.Tos.Reconcile

/-!
# What the drift check compares

The books of the venue's positions and of its working rows hold the sums they stand for, and the
contracts of the drift list are the contracts that differ.
-/

namespace TradeEngine.Tos

open Lib

variable {A : Arith}

/-! ## What the venue shows -/

def positionOf (positions : List (Contract × Money)) (c : Contract) : ℚ :=
  (positions.map fun p => if p.1 = c then p.2.val else 0).sum

/-- The contracts a live row would still bring, signed. -/
def Row.remainder (r : Row) : ℚ := if r.live then r.side.unit * (r.quantity.val - r.filled.val) else 0

/-- The live remainders of the working rows of a contract. -/
def remainderOf (working : List Row) (c : Contract) : ℚ :=
  (working.map fun r => if r.contract = c then r.remainder else 0).sum

/-- Whether a contract has a row in an unknown state. -/
def Unknown (working : List Row) (c : Contract) : Prop :=
  ∃ r ∈ working, r.contract = c ∧ r.state = .pendingUnknown

def Differs (expected : Book) (positions : List (Contract × Money)) (working : List Row)
    (c : Contract) : Prop :=
  Unknown working c ∨ positionOf positions c + remainderOf working c ≠ (expected.have c).val

/-! ## Books by contract -/

def ByContract {V : Type} (m : OMap Contract V) : Prop := ∀ e ∈ m.items, e.1 = e.2.1.hk

namespace ByContract

variable {V : Type} {m : OMap Contract V}

theorem empty : ByContract (.empty : OMap Contract V) := by
  intro e he
  cases he

theorem insert (h : ByContract m) (c : Contract) (v : V) : ByContract (m.insert c.hk c v) :=
  OMap.forall_keys_insert (P := fun t (k : Contract) => t = k.hk) h rfl

theorem mem_iff (h : ByContract m) {c : Contract} :
    c ∈ m.entries.map (·.1) ↔ (m.get c.hk).isSome = true := by
  rw [OMap.entries, List.map_map, List.mem_map]
  constructor
  · rintro ⟨e, he, rfl⟩
    have hget := OMap.get_of_mem he
    rw [h e he] at hget
    rw [Function.comp_apply, hget]
    rfl
  · intro hsome
    obtain ⟨v, hv⟩ := Option.isSome_iff_exists.mp hsome
    obtain ⟨k, hk⟩ := OMap.mem_of_get hv
    exact ⟨_, hk, Contract.hk_injective (h _ hk).symm⟩

theorem nodup (h : ByContract m) : (m.entries.map (·.1)).Nodup := by
  have hkeys : (m.items.map (·.1)) = (m.entries.map (·.1)).map Contract.hk := by
    rw [OMap.entries, List.map_map, List.map_map]
    exact List.map_congr_left h
  have hnodup := m.nodup
  rw [hkeys] at hnodup
  exact hnodup.of_map _

end ByContract

theorem Book.mem_of_have {b : Book} (hb : ByContract b) {c : Contract} (h : (b.have c).val ≠ 0) :
    c ∈ b.entries.map (·.1) := by
  rw [hb.mem_iff]
  cases hget : b.get c.hk with
  | some v => rfl
  | none => rw [Book.have, hget, Option.getD_none, Money.val_zero] at h; exact absurd rfl h

theorem Book.add_spec {b b' : Book} {c : Contract} {q : Money} (h : b.add A.exact c q = .ok b')
    (hb : ByContract b) :
    ByContract b' ∧ ∀ d, (b'.have d).val = (b.have d).val + if c = d then q.val else 0 := by
  simp only [Book.add, bind_eq_ok, pure_eq_ok] at h
  obtain ⟨total, htotal, rfl⟩ := h
  refine ⟨hb.insert c total, fun d => ?_⟩
  rw [Book.have, OMap.get_insert]
  by_cases hcd : c = d
  · subst hcd
    rw [if_pos rfl, if_pos rfl, Option.getD_some, Ops.exact_add htotal]
  · rw [if_neg fun hk => hcd (Contract.hk_injective hk).symm, if_neg hcd, add_zero]
    rfl

theorem addPositions_spec {positions : List (Contract × Money)} {b held : Book}
    (h : positions.foldlM (fun b p => b.add A.exact p.1 p.2) b = .ok held) (hb : ByContract b) :
    ByContract held ∧ ∀ c, (held.have c).val = (b.have c).val + positionOf positions c := by
  induction positions generalizing b with
  | nil =>
      cases h
      exact ⟨hb, fun c => by simp [positionOf]⟩
  | cons p positions ih =>
      simp only [List.foldlM_cons, bind_eq_ok] at h
      obtain ⟨b₁, h₁, h⟩ := h
      obtain ⟨hb₁, hadd⟩ := Book.add_spec h₁ hb
      obtain ⟨hheld, hsum⟩ := ih h hb₁
      refine ⟨hheld, fun c => ?_⟩
      rw [hsum, hadd, positionOf, positionOf, List.map_cons, List.sum_cons, add_assoc]

theorem positionBook_spec {positions : List (Contract × Money)} {held : Book}
    (h : positionBook A.exact positions = .ok held) :
    ByContract held ∧ ∀ c, (held.have c).val = positionOf positions c := by
  obtain ⟨hheld, hsum⟩ := addPositions_spec h .empty
  refine ⟨hheld, fun c => ?_⟩
  rw [hsum, Book.have, OMap.get_empty, Option.getD_none, Money.val_zero, zero_add]

def restRow (A : Arith) (acc : Book × OMap Contract Unit) (row : Row) : R (Book × OMap Contract Unit) :=
  if row.state = .pendingUnknown then
    pure (acc.1, acc.2.insert row.contract.hk row.contract ())
  else if row.live then do
    let remaining ← signedBy A row.side (← Ops.sub A row.quantity row.filled)
    pure (← acc.1.add A row.contract remaining, acc.2)
  else pure acc

theorem resting_eq (working : List Row) :
    resting A working = working.foldlM (restRow A) (.empty, .empty) := rfl

theorem restRow_spec {row : Row} {acc acc' : Book × OMap Contract Unit}
    (h : restRow A.exact acc row = .ok acc')
    (hrest : ByContract acc.1) (hunknown : ByContract acc.2) :
    ByContract acc'.1 ∧ ByContract acc'.2 ∧
      (∀ c, (acc'.1.have c).val = (acc.1.have c).val + if row.contract = c then row.remainder else 0) ∧
      ∀ c, (acc'.2.get c.hk).isSome = true ↔
        (row.contract = c ∧ row.state = .pendingUnknown) ∨ (acc.2.get c.hk).isSome = true := by
  unfold restRow at h
  split_ifs at h with hstate hlive
  · cases h
    have hdead : row.remainder = 0 := by simp [Row.remainder, Row.live, live, hstate]
    refine ⟨hrest, hunknown.insert _ _, fun c => by simp [hdead], fun c => ?_⟩
    rw [OMap.get_insert]
    by_cases hc : row.contract = c
    · simp [hc, hstate]
    · rw [if_neg fun hk => hc (Contract.hk_injective hk).symm]
      simp [hc]
  · simp only [bind_eq_ok, pure_eq_ok] at h
    obtain ⟨left, hleft, signed, hsigned, book, hbook, rfl⟩ := h
    obtain ⟨hkeyed, hsum⟩ := Book.add_spec hbook hrest
    have hval : signed.val = row.remainder := by
      rw [signedBy_exact hsigned, Ops.exact_sub hleft, Row.remainder, if_pos hlive]
    refine ⟨hkeyed, hunknown, fun c => by rw [hsum, hval], fun c => by simp [hstate]⟩
  · cases h
    have hdead : row.remainder = 0 := by simp [Row.remainder, hlive]
    exact ⟨hrest, hunknown, fun c => by simp [hdead], fun c => by simp [hstate]⟩

theorem restRows_spec {working : List Row} {acc acc' : Book × OMap Contract Unit}
    (h : working.foldlM (restRow A.exact) acc = .ok acc') (hrest : ByContract acc.1)
    (hunknown : ByContract acc.2) :
    ByContract acc'.1 ∧ ByContract acc'.2 ∧
      (∀ c, (acc'.1.have c).val = (acc.1.have c).val + remainderOf working c) ∧
      ∀ c, (acc'.2.get c.hk).isSome = true ↔ Unknown working c ∨ (acc.2.get c.hk).isSome = true := by
  induction working generalizing acc with
  | nil =>
      cases h
      exact ⟨hrest, hunknown, fun c => by simp [remainderOf], fun c => by simp [Unknown]⟩
  | cons row working ih =>
      simp only [List.foldlM_cons, bind_eq_ok] at h
      obtain ⟨acc₁, h₁, h⟩ := h
      obtain ⟨hrest₁, hunknown₁, hsum₁, hseen₁⟩ := restRow_spec h₁ hrest hunknown
      obtain ⟨hrest', hunknown', hsum, hseen⟩ := ih h hrest₁ hunknown₁
      refine ⟨hrest', hunknown', fun c => ?_, fun c => ?_⟩
      · rw [hsum, hsum₁, remainderOf, remainderOf, List.map_cons, List.sum_cons, add_assoc]
      · rw [hseen, hseen₁, Unknown, Unknown, List.exists_mem_cons_iff, ← or_assoc,
          or_comm (b := row.contract = c ∧ row.state = .pendingUnknown)]

theorem resting_spec {working : List Row} {rest : Book} {unknown : OMap Contract Unit}
    (h : resting A.exact working = .ok (rest, unknown)) :
    ByContract rest ∧ ByContract unknown ∧ (∀ c, (rest.have c).val = remainderOf working c) ∧
      ∀ c, (unknown.get c.hk).isSome = true ↔ Unknown working c := by
  rw [resting_eq] at h
  obtain ⟨hrest, hunknown, hsum, hseen⟩ := restRows_spec h .empty .empty
  refine ⟨hrest, hunknown, fun c => ?_, fun c => ?_⟩
  · rw [hsum, Book.have, OMap.get_empty, Option.getD_none, Money.val_zero, zero_add]
  · rw [hseen, OMap.get_empty]
    simp

/-! ## The drift list -/

theorem contracts_spec (l : List Contract) :
    ByContract (l.foldl (fun m c => m.insert c.hk c ()) (OMap.empty : OMap Contract Unit)) ∧
      ∀ c, c ∈ (l.foldl (fun m c => m.insert c.hk c ()) (OMap.empty : OMap Contract Unit)).entries.map
        (·.1) ↔ c ∈ l := by
  have hrun : ∀ {m : OMap Contract Unit} (_ : ByContract m),
      ByContract (l.foldl (fun m c => m.insert c.hk c ()) m) ∧
        ∀ c, ((l.foldl (fun m c => m.insert c.hk c ()) m).get c.hk).isSome = true ↔
          c ∈ l ∨ (m.get c.hk).isSome = true := by
    intro m hm
    induction l generalizing m with
    | nil => exact ⟨hm, fun c => by simp⟩
    | cons d l ih =>
        obtain ⟨hkeyed, hmem⟩ := ih (hm.insert d ())
        refine ⟨hkeyed, fun c => ?_⟩
        rw [List.foldl_cons, hmem, OMap.get_insert]
        by_cases hc : c = d
        · simp [hc]
        · rw [if_neg fun hk => hc (Contract.hk_injective hk)]
          simp [hc]
  obtain ⟨hkeyed, hmem⟩ := hrun .empty
  refine ⟨hkeyed, fun c => ?_⟩
  rw [hkeyed.mem_iff, hmem, OMap.get_empty]
  simp

/-- Every contract has a symbol: an option's strike was checked when it was built. -/
theorem symbol_ok (c : Contract) : ∃ s, c.symbol = .ok s := by
  cases c with
  | equity s => exact ⟨s, rfl⟩
  | future f => exact ⟨f.symbol, rfl⟩
  | option c =>
      have hstrike := c.strike_ok
      cases hmillis : strikeMillis c.strike with
      | ok millis => exact ⟨_, by rw [Contract.symbol, OptionContract.occ, hmillis]; rfl⟩
      | error e =>
          unfold validateStrike at hstrike
          rw [hmillis] at hstrike
          dsimp only at hstrike
          split_ifs at hstrike <;> cases hstrike

theorem driftNames_ok {p : Contract → Prop} [DecidablePred p] {f : Contract → R Bool} {l : List Contract}
    (hf : ∀ c ∈ l, f c = .ok (decide (p c))) (names : List String) :
    ∃ found, (l.filter (decide <| p ·)).mapM Contract.symbol = .ok found ∧
      l.foldlM (fun names c => do
        if ← f c then pure (names ++ [← c.symbol]) else pure names) names = .ok (names ++ found) := by
  induction l generalizing names with
  | nil => exact ⟨[], rfl, by simp [pure, Except.pure]⟩
  | cons c l ih =>
      have hl := fun d hd => hf d (List.mem_cons_of_mem _ hd)
      by_cases hc : p c
      · obtain ⟨s, hs⟩ := symbol_ok c
        obtain ⟨found, hfound, hfold⟩ := ih hl (names ++ [s])
        refine ⟨s :: found, ?_, ?_⟩
        · rw [List.filter_cons_of_pos (by simpa using hc)]
          simp only [List.mapM_cons, bind_eq_ok, pure_eq_ok]
          exact ⟨s, hs, found, hfound, rfl⟩
        · rw [List.foldlM_cons, hf c List.mem_cons_self, decide_eq_true hc, hs]
          simpa using hfold
      · obtain ⟨found, hfound, hfold⟩ := ih hl names
        refine ⟨found, ?_, ?_⟩
        · rw [List.filter_cons_of_neg (by simpa using hc)]
          exact hfound
        · rw [List.foldlM_cons, hf c List.mem_cons_self, decide_eq_false hc]
          exact hfold

/-! ## No rounding -/

theorem Book.add_refuses {B : Arith} (le : A.Le B) (b : Book) (c : Contract) (q : Money) :
    Refuses (b.add A c q) (b.add B c q) := (Ops.add_refuses le _ _).bind fun _ _ => .refl

theorem positionBook_refuses {B : Arith} (le : A.Le B) (positions : List (Contract × Money)) :
    Refuses (positionBook A positions) (positionBook B positions) :=
  .foldlM (fun b _ => b.add_refuses le _ _) _ _

theorem resting_refuses {B : Arith} (le : A.Le B) (working : List Row) :
    Refuses (resting A working) (resting B working) := by
  refine .foldlM (fun acc row => .ite (fun _ => .refl) fun _ => .ite (fun _ => ?_) fun _ => .refl) _ _
  refine (Ops.sub_refuses le _ _).bind fun _ _ => .bind ?_ fun _ _ => ?_
  · exact .ite (fun _ => .refl) fun _ => Ops.neg_refuses le _
  · exact (Book.add_refuses le _ _ _).bind fun _ _ => .refl

/-! ## The verdict -/

/-- The sums that the drift check compares, taken without rounding. -/
structure Compared (A : Arith) (positions : List (Contract × Money)) (working : List Row)
    (held rest : Book) (unknown : OMap Contract Unit) : Prop where
  held_eq : positionBook A.exact positions = .ok held
  rest_eq : resting A.exact working = .ok (rest, unknown)
  total_ok : ∀ c, ∃ total, Ops.add A.exact (held.have c) (rest.have c) = .ok total

variable {positions : List (Contract × Money)} {working : List Row} {held rest expected : Book}
  {unknown : OMap Contract Unit}

theorem Compared.drifts (h : Compared A positions working held rest unknown) (c : Contract)
    [Decidable (Differs expected positions working c)] :
    drifts A expected held rest unknown c = .ok (decide (Differs expected positions working c)) := by
  obtain ⟨-, hheld⟩ := positionBook_spec h.held_eq
  obtain ⟨-, -, hrest, hunknown⟩ := resting_spec h.rest_eq
  obtain ⟨total, htotal⟩ := h.total_ok c
  have hval := Ops.exact_add htotal
  rw [hheld, hrest] at hval
  have hsum := Ops.add_refuses A.exact_le _ _ _ htotal
  simp only [Tos.drifts, hsum]
  refine congrArg Except.ok (Bool.eq_iff_iff.mpr ?_)
  rw [Bool.or_eq_true, OMap.contains, hunknown, Money.ne_iff, hval, decide_eq_true_iff]
  rfl

theorem Compared.mem_of_differs (h : Compared A positions working held rest unknown)
    (hexpected : ByContract expected) {c : Contract} (hc : Differs expected positions working c) :
    c ∈ expected.entries.map (·.1) ++ held.entries.map (·.1) ++ rest.entries.map (·.1) ++
      unknown.entries.map (·.1) := by
  obtain ⟨hheldk, hheld⟩ := positionBook_spec h.held_eq
  obtain ⟨hrestk, hunknownk, hrest, hunknown⟩ := resting_spec h.rest_eq
  simp only [List.mem_append]
  rcases hc with hc | hc
  · exact .inr (hunknownk.mem_iff.mpr ((hunknown c).mpr hc))
  · by_contra hnone
    simp only [not_or] at hnone
    obtain ⟨⟨⟨hexp, hh⟩, hr⟩, -⟩ := hnone
    have he : (expected.have c).val = 0 := not_not.mp fun hne => hexp (Book.mem_of_have hexpected hne)
    have hp : positionOf positions c = 0 :=
      not_not.mp fun hne => hh (Book.mem_of_have hheldk (by rwa [hheld]))
    have hw : remainderOf working c = 0 :=
      not_not.mp fun hne => hr (Book.mem_of_have hrestk (by rwa [hrest]))
    rw [he, hp, hw, add_zero] at hc
    exact hc rfl

theorem venueReconcile_ok {venue : String} {t : DateTime} (hvenue : venue ≠ "") {reconciled : Bool}
    {drift : List String} (hdrift : reconciled = true ↔ drift = []) (note : Option String) :
    ∃ r, venueReconcile venue (.ok (t, true)) reconciled drift note = .ok r ∧
      r.reconciled = reconciled ∧ r.drift = drift := by
  unfold venueReconcile
  rw [dif_neg hvenue]
  refine ⟨⟨venue, t, reconciled, drift, note, hvenue, hdrift⟩, ?_, rfl, rfl⟩
  simp only [requireAware, refuseIf, bind_eq_ok]
  refine ⟨t, by simp [pure, Except.pure], ?_⟩
  rw [dif_neg, dif_neg]
  · rintro ⟨rfl, hnil⟩
    cases hdrift.mpr hnil
  · rintro ⟨rfl, hne⟩
    exact hne (hdrift.mp rfl)

theorem Compared.reconcile (h : Compared A positions working held rest unknown)
    (hexpected : ByContract expected) {venue : String} {t : DateTime} (hvenue : venue ≠ "") :
    ∃ r cs names, reconcile A venue (.ok (t, true)) expected positions working = .ok r ∧
      cs.Nodup ∧ (∀ c, c ∈ cs ↔ Differs expected positions working c) ∧
      cs.mapM Contract.symbol = .ok names ∧ r.drift = sortTexts names ∧
      (r.reconciled = true ↔ cs = []) := by
  classical
  let listed := expected.entries.map (·.1) ++ held.entries.map (·.1) ++ rest.entries.map (·.1) ++
    unknown.entries.map (·.1)
  let contracts := (listed.foldl (fun m c => m.insert c.hk c ()) (OMap.empty : OMap Contract Unit)
    ).entries.map (·.1)
  obtain ⟨hkeyed, hmem⟩ := contracts_spec listed
  obtain ⟨names, hnames, hfold⟩ := driftNames_ok (l := contracts)
    (p := Differs expected positions working) (fun c _ => h.drifts c) []
  have hcs : ∀ c, c ∈ contracts.filter (decide <| Differs expected positions working ·) ↔
      Differs expected positions working c := by
    intro c
    rw [List.mem_filter, decide_eq_true_iff, hmem]
    exact and_iff_right_of_imp fun hc => h.mem_of_differs hexpected hc
  have hnil : names = [] ↔ contracts.filter (decide <| Differs expected positions working ·) = [] := by
    rw [← List.length_eq_zero_iff, ← List.length_eq_zero_iff, (mapM_ok hnames).length_eq]
  have hsorted : sortTexts names = [] ↔ names = [] := by
    rw [← List.length_eq_zero_iff, ← List.length_eq_zero_iff, sortTexts, List.length_insertionSort]
  have hfound : decide (names = []) = true ↔ sortTexts names = [] := by
    rw [decide_eq_true_iff, hsorted]
  obtain ⟨r, hr, hreconciled, hdrift⟩ := venueReconcile_ok (t := t) hvenue hfound
    (if names = [] then none else
      some "venue positions + working orders disagree with the mirror book; venue halted")
  refine ⟨r, _, names, ?_, hkeyed.nodup.filter _, hcs, hnames, hdrift, ?_⟩
  · simp only [Tos.reconcile, bind_eq_ok]
    refine ⟨held, positionBook_refuses A.exact_le _ _ h.held_eq, (rest, unknown),
      resting_refuses A.exact_le _ _ h.rest_eq, names, ?_, ?_⟩
    · exact hfold
    · by_cases hempty : names = []
      · subst hempty
        exact hr
      · simp only [hempty, decide_false, if_false] at hr
        rw [if_pos hempty]
        exact hr
  · rw [hreconciled, decide_eq_true_iff, hnil]

end TradeEngine.Tos
