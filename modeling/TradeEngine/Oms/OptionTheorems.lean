import TradeEngine.Ledger.Theorems
import TradeEngine.Oms.Lemmas.Exposure

/-!
# The uncovered calls of an account

The figure `uncovered_calls` gives for an underlying is the least number of short calls that any
assignment of the long calls leaves, in shares.
-/

namespace TradeEngine.Oms

open Lib
open Sim (dmin dmax)

/-! ## Counting and matching without rounding -/

section Refuses

variable {A B : Arith} (le : A.Le B)

include le

open Ops

theorem bookPosition_refuses (closing : List Contract) (x : Exposure) (e : Instrument × Position) :
    Refuses (bookPosition A closing x e) (bookPosition B closing x e) := by
  unfold bookPosition
  split
  · exact (add_refuses le _ _).bind fun _ _ => .refl
  · refine .ite (fun _ => .refl) fun _ => .bind .refl fun _ _ => ?_
    exact (abs_refuses le _).bind fun _ _ => .refl
  · exact .refl

theorem bookLeg_refuses (st : AccountState) (o : Order) (x : Exposure) (leg : ComboLeg) :
    Refuses (bookLeg A st o x leg) (bookLeg B st o x leg) := by
  unfold bookLeg
  split
  · refine .ite (fun _ => .bind .refl fun _ _ => ?_) fun _ => .refl
    exact (sub_refuses le _ _).bind fun _ _ => (mulI_refuses le _ _).bind fun _ _ => .refl
  · exact .refl

theorem bookOrder_refuses (st : AccountState) (x : Exposure) (o : Order) :
    Refuses (bookOrder A st x o) (bookOrder B st x o) := by
  unfold bookOrder
  refine .ite (fun _ => .refl) fun _ => ?_
  split
  · exact (sub_refuses le _ _).bind fun _ _ => (sub_refuses le _ _).bind fun _ _ => .refl
  · exact .ite (fun _ => .foldlM (bookLeg_refuses le st o) _ _) fun _ => .refl

theorem exposure_refuses (st : AccountState) (closing : List Contract) :
    Refuses (exposure A st closing) (exposure B st closing) :=
  .bind (.foldlM (bookPosition_refuses le closing) _ _) fun _ _ =>
    .foldlM (bookOrder_refuses le st) _ _

theorem takeCover_refuses (short : OptionContract) (l : List (OptionContract × Money)) (need : Money) :
    Refuses (takeCover A short need l) (takeCover B short need l) := by
  induction l generalizing need with
  | nil => exact .refl
  | cons e l ih =>
      obtain ⟨long, free⟩ := e
      unfold takeCover
      refine .ite (fun _ => .refl) fun _ => .ite (fun _ => ?_) fun _ => ?_
      · refine (sub_refuses le _ _).bind fun _ _ => (sub_refuses le _ _).bind fun _ _ => ?_
        exact (ih _).bind fun _ _ => .refl
      · exact (ih _).bind fun _ _ => .refl

theorem uncoveredOn_refuses (x : Exposure) (name : String) :
    Refuses (uncoveredOn A x name) (uncoveredOn B x name) := by
  refine .bind (.foldlM (fun acc short => ?_) _ _) fun _ _ => .refl
  refine (takeCover_refuses le _ _ _).bind fun _ _ => (mulI_refuses le _ _).bind fun _ _ => ?_
  exact (add_refuses le _ _).bind fun _ _ => .refl

end Refuses

/-! ## What is counted -/

/-- An entry still working, whose short calls need their cover now. -/
def WorkingEntry (o : Order) : Prop :=
  terminal o.state = false ∧ o.parentOrderId = none ∧ isStructure o.instrument = true

/-- No call is counted a negative number of times. -/
def Exposure.Counts (x : Exposure) : Prop :=
  (∀ y ∈ x.shorts, 0 ≤ y.2.2.val) ∧ ∀ y ∈ x.longs, 0 ≤ y.2.2.val

section Counts

variable {A : Arith}

theorem Exposure.Counts.addShort {x : Exposure} {y : String × OptionContract × Money} (h : x.Counts)
    (hy : 0 ≤ y.2.2.val) : Counts { x with shorts := x.shorts ++ [y] } := by
  refine ⟨fun z hz => ?_, h.2⟩
  rcases List.mem_append.mp hz with hz | hz
  · exact h.1 z hz
  · rw [List.mem_singleton.mp hz]
    exact hy

theorem Exposure.Counts.addLong {x : Exposure} {y : String × OptionContract × Money} (h : x.Counts)
    (hy : 0 ≤ y.2.2.val) : Counts { x with longs := x.longs ++ [y] } := by
  refine ⟨h.1, fun z hz => ?_⟩
  rcases List.mem_append.mp hz with hz | hz
  · exact h.2 z hz
  · rw [List.mem_singleton.mp hz]
    exact hy

theorem bookPosition_counts {closing : List Contract} {x x' : Exposure} {e : Instrument × Position}
    (h : bookPosition A.exact closing x e = .ok x') (hx : x.Counts) : x'.Counts := by
  unfold bookPosition at h
  split at h
  · simp only [bind_eq_ok, pure_eq_ok] at h
    obtain ⟨free, -, rfl⟩ := h
    exact hx
  · dsimp only at h
    have hpos : ∀ q, Ops.abs A.exact e.2.quantity = .ok q → 0 ≤ q.val := by
      intro q hq
      rw [Ops.exact_abs hq]
      exact abs_nonneg _
    split_ifs at h
    · cases h
      exact hx
    · simp only [bind_eq_ok, pure_eq_ok] at h
      obtain ⟨name, -, q, hq, rfl⟩ := h
      exact hx.addShort (hpos q hq)
    · simp only [bind_eq_ok, pure_eq_ok] at h
      obtain ⟨name, -, q, hq, rfl⟩ := h
      exact hx.addLong (hpos q hq)
  · cases h
    exact hx

theorem bookLeg_counts {st : AccountState} {o : Order} {x x' : Exposure} {leg : ComboLeg}
    (h : bookLeg A.exact st o x leg = .ok x') (ho : (st.filled o.orderId).val ≤ o.quantity.val)
    (hx : x.Counts) : x'.Counts := by
  unfold bookLeg at h
  split at h
  · split_ifs at h
    · simp only [bind_eq_ok, pure_eq_ok] at h
      obtain ⟨key, -, rest, hrest, q, hq, rfl⟩ := h
      refine hx.addShort ?_
      have hratio : (0 : ℚ) ≤ leg.ratio := by exact_mod_cast leg.ratio_pos.le
      rw [Ops.exact_mulI hq, Ops.exact_sub hrest]
      exact mul_nonneg (sub_nonneg.mpr ho) hratio
    · cases h
      exact hx
  · cases h
    exact hx

theorem bookOrder_counts {st : AccountState} {x x' : Exposure} {o : Order}
    (h : bookOrder A.exact st x o = .ok x')
    (ho : WorkingEntry o → (st.filled o.orderId).val ≤ o.quantity.val) (hx : x.Counts) : x'.Counts := by
  unfold bookOrder at h
  split_ifs at h with ht
  · cases h
    exact hx
  · split at h
    · simp only [bind_eq_ok, pure_eq_ok] at h
      obtain ⟨rest, -, free, -, rfl⟩ := h
      exact hx
    · split_ifs at h with he
      · rw [Bool.and_eq_true, Option.isNone_iff_eq_none] at he
        have hfill := ho ⟨by simpa using ht, he.1, he.2⟩
        exact foldlM_invariant (P := Exposure.Counts) (fun _ _ _ _ hleg => bookLeg_counts hleg hfill) h hx
      · cases h
        exact hx

theorem exposure_counts {st : AccountState} {closing : List Contract} {x : Exposure}
    (h : exposure A.exact st closing = .ok x)
    (hfill : ∀ o ∈ st.orders.values, WorkingEntry o → (st.filled o.orderId).val ≤ o.quantity.val) :
    x.Counts := by
  simp only [exposure, bind_eq_ok] at h
  obtain ⟨held, hheld, h⟩ := h
  have hnone : Exposure.Counts ⟨[], [], .empty⟩ := ⟨fun y hy => (by cases hy), fun y hy => (by cases hy)⟩
  have hcounts : held.Counts :=
    foldlM_invariant (P := Exposure.Counts) (fun _ _ _ _ he => bookPosition_counts he) hheld hnone
  exact foldlM_invariant (P := Exposure.Counts) (fun _ o _ ho hb => bookOrder_counts hb (hfill o ho)) h
    hcounts

theorem callsOn_forall {P : Money → Prop} {u : String} {l : List (String × OptionContract × Money)}
    (h : ∀ y ∈ l, P y.2.2) : ∀ y ∈ callsOn u l, P y.2 := by
  intro y hy
  obtain ⟨z, hz, rfl⟩ := List.mem_map.mp hy
  exact h z (List.mem_filter.mp hz).1

end Counts

end TradeEngine.Oms

namespace TradeEngine.Sample

open Lib

/-- A call that expires a quarter after the others. -/
def laterCall : OptionContract := { call with expiry := .ymd 2026 12 18 }

/-- A call on one share. -/
def unitCall : OptionContract := { call160 with multiplier := 1, multiplier_pos := Int.one_pos }

def writes (id : String) (c : OptionContract) (n : Nat) : Order :=
  market id ("c:" ++ id) (.single (.option c)) .sell (units n)

/-- An account with two entries that write calls still working, and what each has filled. -/
def writing (a b : Order) (filled : OMap String Money) : AccountState :=
  { AccountState.new "acct" with
    orders := (OMap.empty.put a.orderId a).put b.orderId b
    filledQuantity := filled }

/-- Two long calls of the later expiry, and three calls of either expiry being written. -/
def hedged : AccountState :=
  { writing (writes "o1" call160 3) (writes "o2" laterCall 3) .empty with
    positions := OMap.empty.insert (Contract.option laterCall).hk (.single (.option laterCall))
      ⟨"acct", .single (.option laterCall), units 2, units 5, .zero, []⟩ }

end TradeEngine.Sample

namespace TradeEngine.Oms

open Lib

/-- Where no working entry is filled beyond its quantity and no operation of the count rounds, the
figure of an underlying is the least number of short calls that an assignment of the long calls
leaves, times their multiplier. -/
theorem uncovered_calls_least (D : RustDecimal) {st : AccountState} {closingCounts : Bool}
    {figures : List (String × Money × Money)} {closing : List Contract} {x : Exposure} {u : String}
    {uncovered free : Money} {m : Int} (S : AddSubgroup ℚ)
    (h : uncoveredCalls (.code D) st closingCounts = .ok figures)
    (hclosing : (if closingCounts then pure [] else closingContracts (.code D) st) = Except.ok closing)
    (hx : exposure (Arith.code D).exact st closing = .ok x)
    (hexact : ∃ r, uncoveredOn (Arith.code D).exact x u = .ok r)
    (hfill : ∀ o ∈ st.orders.values, WorkingEntry o → (st.filled o.orderId).val ≤ o.quantity.val)
    (hu : (u, uncovered, free) ∈ figures)
    (hmult : ∀ s ∈ callsOn u x.shorts, s.1.multiplier = m)
    (hS : ∀ y ∈ callsOn u x.shorts ++ callsOn u x.longs, y.2.val ∈ S) :
    ∃ k, IsLeast (Set.range fun f : Assignment S (spans (callsOn u x.longs))
      (spans (callsOn u x.shorts)) => f.left) k ∧ uncovered.val = m * k := by
  have hcounts := exposure_counts hx hfill
  obtain ⟨r, hr⟩ := hexact
  -- the figure of the account is the one of this underlying
  have hsame : r = (u, uncovered, free) := by
    have hx' := exposure_refuses (Arith.exact_le _) st closing x hx
    have hr' := uncoveredOn_refuses (Arith.exact_le _) x u r hr
    simp only [uncoveredCalls, bind_eq_ok] at h
    obtain ⟨closing', hc', x', hx'', h⟩ := h
    rw [hclosing] at hc'
    cases hc'
    rw [hx'] at hx''
    cases hx''
    obtain ⟨name, -, hname⟩ := forall₂_right (mapM_ok h) _ hu
    have hkey : name = u := by
      simp only [uncoveredOn, bind_eq_ok, pure_eq_ok] at hname
      obtain ⟨_, -, hname⟩ := hname
      exact congrArg Prod.fst hname
    rw [hkey, hr'] at hname
    exact Except.ok.inj hname
  subst hsame
  exact uncoveredOn_least S hr hmult
    (fun s hs => ⟨callsOn_forall (P := (0 ≤ ·.val)) hcounts.1 s hs, hS s (List.mem_append_left _ hs)⟩)
    (fun y hy => ⟨callsOn_forall (P := (0 ≤ ·.val)) hcounts.2 y hy, hS y (List.mem_append_right _ hy)⟩)


theorem uncovered_calls_least_hedged :
    ∃ (figures : List (String × Money × Money)) (x : Exposure),
      uncoveredCalls (.code Sample.decimal) Sample.hedged true = .ok figures ∧
      exposure (Arith.code Sample.decimal).exact Sample.hedged [] = .ok x ∧
      ("AAPL", Sample.units 400, .zero) ∈ figures ∧
      ∃ k, IsLeast (Set.range fun f : Assignment (AddSubgroup.zmultiples 1)
        (spans (callsOn "AAPL" x.longs)) (spans (callsOn "AAPL" x.shorts)) => f.left) k ∧
        (Sample.units 400).val = (100 : Int) * k := by
  have hfig : (uncoveredCalls (.code Sample.decimal) Sample.hedged true).toOption =
      some [("AAPL", Sample.units 400, .zero)] := by decide +kernel
  have hcount : ((exposure (Arith.code Sample.decimal).exact Sample.hedged []).toOption.map fun x =>
      (uncoveredOn (Arith.code Sample.decimal).exact x "AAPL").isOk &&
      ((callsOn "AAPL" x.shorts).all fun s => s.1.multiplier == 100) &&
      ((callsOn "AAPL" x.shorts ++ callsOn "AAPL" x.longs).all fun y => y.2.val.den == 1)) =
        some true := by decide +kernel
  have hfill : (Sample.hedged.orders.values.all fun o =>
      decide ((Sample.hedged.filled o.orderId).val ≤ o.quantity.val)) = true := by decide +kernel
  obtain ⟨x, hx, hall⟩ := Option.map_eq_some_iff.mp hcount
  simp only [Bool.and_eq_true, List.all_eq_true, beq_iff_eq] at hall
  obtain ⟨⟨hon, hmult⟩, hwhole⟩ := hall
  have h := toOption_eq_some.mp hfig
  have hx' := toOption_eq_some.mp hx
  have hon' : ∃ r, uncoveredOn (Arith.code Sample.decimal).exact x "AAPL" = .ok r := by
    cases hr : uncoveredOn (Arith.code Sample.decimal).exact x "AAPL" with
    | ok r => exact ⟨r, rfl⟩
    | error e => rw [hr] at hon; cases hon
  refine ⟨_, x, h, hx', List.mem_singleton_self _, ?_⟩
  refine uncovered_calls_least Sample.decimal _ h rfl hx' hon'
    (fun o ho _ => ?_) (List.mem_singleton_self _) hmult fun y hy => ?_
  · exact of_decide_eq_true (List.all_eq_true.mp hfill o ho)
  · refine ⟨y.2.val.num, ?_⟩
    simp only [zsmul_eq_mul, mul_one]
    exact Rat.coe_int_num_of_den_eq_one (hwhole y hy)

/-- The figure of calls on one share that are not covered, `figure` of it, is not what the best
assignment leaves. -/
def Misstates (st : AccountState) (figure : Money) : Prop :=
  ∃ x : Exposure, exposure (.code Sample.decimal) st [] = .ok x ∧
    uncoveredCalls (.code Sample.decimal) st true = .ok [("AAPL", figure, .zero)] ∧
    (∀ s ∈ callsOn "AAPL" (x.shorts ++ x.longs), s.1.multiplier = 1) ∧
    ∀ (S : AddSubgroup ℚ) (k : ℚ), IsLeast (Set.range fun f : Assignment S
      (spans (callsOn "AAPL" x.longs)) (spans (callsOn "AAPL" x.shorts)) => f.left) k →
      figure.val ≠ 1 * k

theorem misstates {st : AccountState} {figure : Money} {l : List (ℤ × ℚ)}
    (hfig : (uncoveredCalls (.code Sample.decimal) st true).toOption = some [("AAPL", figure, .zero)])
    (hx : ((exposure (.code Sample.decimal) st []).toOption.map fun x =>
      (spans (callsOn "AAPL" x.shorts), spans (callsOn "AAPL" x.longs),
        (callsOn "AAPL" (x.shorts ++ x.longs)).all fun s => s.1.multiplier == 1)) =
          some (l, [], true))
    (hne : figure.val ≠ (l.map Prod.snd).sum ∨ ∃ y ∈ l, y.2 < 0) : Misstates st figure := by
  obtain ⟨x, hx, hcount⟩ := Option.map_eq_some_iff.mp hx
  simp only [Prod.mk.injEq, List.all_eq_true, beq_iff_eq] at hcount
  obtain ⟨hshorts, hlongs, hmult⟩ := hcount
  refine ⟨x, toOption_eq_some.mp hx, toOption_eq_some.mp hfig, hmult, fun S k hk => ?_⟩
  rw [hshorts, hlongs] at hk
  obtain ⟨⟨f, rfl⟩, -⟩ := hk
  rcases hne with hne | ⟨y, hy, hneg⟩
  · simpa [Assignment.left] using hne
  · obtain ⟨i, rfl⟩ := List.get_of_mem hy
    have hle : 0 ≤ (l.get i).2 := by simpa using f.demand_le i
    exact absurd hneg (not_lt.mpr hle)

/-- Where the sum rounds, or a working entry is filled beyond its quantity, the figure is another. -/
theorem uncovered_calls_rounds :
    Misstates (Sample.writing (Sample.writes "o1" Sample.unitCall (5 * 10 ^ 28))
      (Sample.writes "o2" Sample.unitCall 1) .empty) (.ofNat (5 * 10 ^ 28)) ∧
    Misstates (Sample.writing (Sample.writes "o1" Sample.unitCall 1)
      (Sample.writes "o2" Sample.unitCall 1) (OMap.empty.put "o1" (Sample.units 3))) .minusOne := by
  constructor
  · exact misstates (l := [(expiryDay Sample.unitCall, 5 * 10 ^ 28), (expiryDay Sample.unitCall, 1)])
      (by decide +kernel) (by decide +kernel) (.inl (by decide +kernel))
  · exact misstates (l := [(expiryDay Sample.unitCall, -2), (expiryDay Sample.unitCall, 1)])
      (by decide +kernel) (by decide +kernel) (.inr ⟨_, List.mem_cons_self, by decide +kernel⟩)

end TradeEngine.Oms
