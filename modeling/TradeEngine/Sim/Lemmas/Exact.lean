import TradeEngine.Money.Rounds
import TradeEngine.Sim.Exact

/-!
# Combo prices land on the limit

First in exact arithmetic, then the venue: where none of its decimals is rounded it finds the same prices.
-/

namespace TradeEngine.Sim.Snapshot.Exact

open Lib Oms

/-! ## The parts of a fill -/

theorem div_eq_ok {a b r : ℚ} : div a b = .ok r ↔ b ≠ 0 ∧ r = a / b := by
  unfold div
  split
  · simp_all
  · simp_all [eq_comm]

theorem larger_cases {shaded : Side} {best : Option (Nat × ℚ)} {x : (ComboLeg × ℚ) × Nat} {b : Nat × ℚ}
    (h : larger shaded best x = some b) : best = some b ∨ x.1.1.side = shaded ∧ b.1 = x.2 := by
  unfold larger at h
  split at h
  · exact .inl h
  · rename_i hside
    cases best with
    | none =>
      cases h
      exact .inr ⟨not_not.1 hside, rfl⟩
    | some c =>
      dsimp only at h
      split at h
      · cases h
        exact .inr ⟨not_not.1 hside, rfl⟩
      · exact .inl h

/-- The place found is that of a shaded leg. -/
theorem largest_side {shaded : Side} {priced : List (ComboLeg × ℚ)} {i : Nat} (h : largest shaded priced = some i) :
    ∃ x, priced[i]? = some x ∧ x.1.side = shaded := by
  -- the best so far is always an entry of the list on the shaded side
  have hrun : ∀ (l : List ((ComboLeg × ℚ) × Nat)) (best : Option (Nat × ℚ)), (∀ x ∈ l, priced[x.2]? = some x.1) →
      (∀ b, best = some b → ∃ x, priced[b.1]? = some x ∧ x.1.side = shaded) →
      ∀ b, l.foldl (larger shaded) best = some b → ∃ x, priced[b.1]? = some x ∧ x.1.side = shaded := by
    intro l
    induction l with
    | nil => intro best _ hbest; simpa using hbest
    | cons y l ih =>
      intro best hl hbest
      apply ih _ fun x hx => hl x (List.mem_cons_of_mem _ hx)
      intro b hb
      rcases larger_cases hb with hbest' | ⟨hside, hplace⟩
      · exact hbest b hbest'
      · rw [hplace]
        exact ⟨y.1, hl y (by simp), hside⟩
  obtain ⟨b, hb, rfl⟩ := Option.map_eq_some_iff.1 h
  refine hrun priced.zipIdx none ?_ (by simp) b hb
  intro x hx
  exact List.mk_mem_zipIdx_iff_getElem?.1 hx

/-- Moving the price of one leg moves the total by that leg's part. -/
theorem total_set {shaded : Side} {ls : List ComboLeg} {filled : List ℚ} {i : Nat} {leg : ComboLeg} {price : ℚ}
    (hl : ls[i]? = some leg) (hp : filled[i]? = some price) (step : ℚ) :
    total shaded (ls.zip (filled.set i (price + step))) = total shaded (ls.zip filled) + term shaded leg step := by
  induction ls generalizing filled i with
  | nil => simp at hl
  | cons l ls ih =>
    cases filled with
    | nil => simp at hp
    | cons q filled =>
      cases i with
      | zero =>
        simp only [List.getElem?_cons_zero, Option.some.injEq] at hl hp
        subst hl hp
        simp only [total, List.set_cons_zero, List.zip_cons_cons, List.map_cons, List.sum_cons, term]
        ring
      | succ i =>
        simp only [List.getElem?_cons_succ] at hl hp
        have hrest := ih hl hp
        simp only [total] at hrest
        simp only [total, List.set_cons_succ, List.zip_cons_cons, List.map_cons, List.sum_cons, hrest]
        ring

/-- Settling the residue takes the net to the limit and moves a shaded leg at most. -/
theorem settleResidue_spec {o : VOrder} {scale residue limit : ℚ} {filled out : List ℚ} (hs : scale ≠ 0)
    (hr : residue = limit - total o.side ((legs o).zip filled) / scale)
    (h : settleResidue o scale residue filled = .ok out) :
    total o.side ((legs o).zip out) / scale = limit ∧ out.length = filled.length ∧
      ∀ (i : Nat) (leg : ComboLeg), (legs o)[i]? = some leg → leg.side ≠ o.side → out[i]? = filled[i]? := by
  unfold settleResidue at h
  split at h
  · rename_i hz
    cases h
    exact ⟨by linarith, rfl, fun _ _ _ _ => rfl⟩
  · split at h
    · cases h
    · rename_i i hi
      obtain ⟨x, hx, hside⟩ := largest_side hi
      obtain ⟨hl, hp⟩ := List.getElem?_zip_eq_some.1 hx
      rw [hl, hp] at h
      dsimp only at h
      obtain ⟨step, hstep, hout⟩ := bind_eq_ok.mp h
      cases hout
      obtain ⟨hne, rfl⟩ := div_eq_ok.1 hstep
      refine ⟨?_, by simp, ?_⟩
      · push_cast at hne
        obtain ⟨hratio, hmult⟩ := mul_ne_zero_iff.1 hne
        have hterm : term o.side x.1 (residue * scale / ((x.1.ratio * multiplierOf x.1.contract : Int) : ℚ)) = residue * scale := by
          rw [term, if_pos hside]
          push_cast
          field_simp
        rw [total_set hl hp, hterm, add_div, mul_div_cancel_right₀ _ hs, hr]
        ring
      · intro j leg hj hother
        have hij : i ≠ j := by
          rintro rfl
          rw [hl] at hj
          cases hj
          exact hother hside
        rw [List.getElem?_set_ne hij]

/-- At the limit or on its favourable side. -/
def AtOrThrough (side : Side) (model limit : ℚ) : Prop :=
  match side with
  | .sell => limit ≤ model
  | .buy => model ≤ limit

theorem atOrThrough_of_not_missed {side : Side} {model limit : ℚ} (h : ¬ missed side model limit = true) :
    AtOrThrough side model limit := by
  cases side <;> simpa [missed, AtOrThrough] using h

/-- What a combo's leg prices come to per unit: signed by side, weighted by ratio and multiplier. -/
def perUnit (o : VOrder) (scale : Int) (prices : List ℚ) : ℚ := total o.side ((legs o).zip prices) / scale

theorem comboPrices_spec {o : VOrder} {limit : ℚ} {prices filled : List ℚ} (hlen : prices.length = (legs o).length)
    (h : comboPrices o limit prices = .ok (some filled)) :
    ∃ scale, multiplier o = .ok scale ∧ AtOrThrough o.side (perUnit o scale prices) limit ∧
      filled.length = prices.length ∧ (∀ p ∈ filled, 0 < p) ∧ perUnit o scale filled = limit ∧
      ∀ (i : Nat) (leg : ComboLeg), (legs o)[i]? = some leg → leg.side ≠ o.side → filled[i]? = (prices[i]?).map quantize := by
  obtain ⟨scale, hscale, h⟩ := bind_eq_ok.mp h
  refine ⟨scale, hscale, ?_⟩
  obtain ⟨model, hmodel, h⟩ := bind_eq_ok.mp h
  obtain ⟨hs, rfl⟩ := div_eq_ok.1 hmodel
  split at h
  · cases h
  · rename_i hout
    unfold shadedPrices at h
    obtain ⟨kept, -, h⟩ := bind_eq_ok.mp h
    obtain ⟨factor, -, h⟩ := bind_eq_ok.mp h
    obtain ⟨after, hafter, h⟩ := bind_eq_ok.mp h
    obtain ⟨-, rfl⟩ := div_eq_ok.1 hafter
    obtain ⟨settled, hsettled, h⟩ := bind_eq_ok.mp h
    split at h
    · cases h
    · rename_i hpos
      cases h
      obtain ⟨hnet, hlen', hother⟩ := settleResidue_spec hs rfl hsettled
      refine ⟨?_, ?_, ?_, hnet, ?_⟩
      · exact atOrThrough_of_not_missed hout
      · rw [hlen', List.length_map, List.length_zip, hlen]
        omega
      · intro p hp
        by_contra hneg
        exact hpos (List.any_eq_true.2 ⟨p, hp, by simpa using hneg⟩)
      · intro i leg hleg hside
        rw [hother i leg hleg hside, List.getElem?_map]
        cases hp : prices[i]? with
        | none =>
          have hlt : i < prices.length := by
            rw [hlen]
            exact (List.getElem?_eq_some_iff.1 hleg).1
          rw [List.getElem?_eq_getElem hlt] at hp
          cases hp
        | some p =>
          rw [(List.getElem?_zip_eq_some (z := (leg, p))).2 ⟨hleg, hp⟩]
          simp [hside]

/-! ## The venue where its decimals are exact -/

section Venue

open Sim.Snapshot

variable {A : Arith}

theorem fromI128_val_d {n : Int} {m : Money} (h : d (Money.fromI128 n) = .ok m) : m.val = n :=
  Money.fromI128_val (except_mapError_eq_ok.mp h)

theorem mul_val {a b r : Money} (h : Ops.mul A.exact a b = .ok r) : r.val = a.val * b.val :=
  Arith.exact_mul (except_mapError_eq_ok.mp h)

theorem mulI_val {a r : Money} {n : Int} (h : Ops.mulI A.exact a n = .ok r) : r.val = a.val * n :=
  Arith.exact_mulI (except_mapError_eq_ok.mp h)

theorem add_val {a b r : Money} (h : Ops.add A.exact a b = .ok r) : r.val = a.val + b.val :=
  Arith.exact_add (except_mapError_eq_ok.mp h)

theorem sub_val {a b r : Money} (h : Ops.sub A.exact a b = .ok r) : r.val = a.val - b.val :=
  Arith.exact_sub (except_mapError_eq_ok.mp h)

/-- A list of prices as numbers, beside their legs. -/
def worth (priced : List (ComboLeg × Money)) : List (ComboLeg × ℚ) := priced.map fun x => (x.1, x.2.val)

theorem zip_worth (ls : List ComboLeg) (prices : List Money) : worth (ls.zip prices) = ls.zip (prices.map Money.val) := by
  rw [worth, List.zip_map_right]
  rfl

theorem foldlM_val {α : Type} {f : Money → α → R Money} {g : α → ℚ}
    (hf : ∀ total x r, f total x = .ok r → r.val = total.val + g x) {l : List α} {init r : Money}
    (h : l.foldlM f init = .ok r) : r.val = init.val + (l.map g).sum := by
  induction l generalizing init with
  | nil =>
    cases h
    simp
  | cons x l ih =>
    rw [List.foldlM_cons] at h
    obtain ⟨next, hnext, h⟩ := bind_eq_ok.mp h
    rw [ih h, hf init x next hnext, List.map_cons, List.sum_cons, add_assoc]

variable {D : RustDecimal}

theorem div_val {a b r : Money} (h : Ops.div (Arith.code D).exact a b = .ok r) : div a.val b.val = .ok r.val := by
  obtain ⟨hdiv, hval⟩ := keepExact_eq_ok.mp (except_mapError_eq_ok.mp h)
  refine div_eq_ok.2 ⟨?_, hval⟩
  intro hz
  have herr : Money.div a b = .ok r := hdiv
  rw [Money.div_zero_divisor hz] at herr
  cases herr

theorem net_val {shaded : Side} {scale r : Money} {priced : List (ComboLeg × Money)}
    (h : Sim.Snapshot.net (Arith.code D).exact shaded scale priced = .ok r) :
    net shaded scale.val (worth priced) = .ok r.val := by
  obtain ⟨t, ht, h⟩ := bind_eq_ok.mp h
  have htotal : t.val = total shaded (worth priced) := by
    have hsum := foldlM_val (g := fun x : ComboLeg × Money => term shaded x.1 x.2.val) ?_ ht
    · rw [hsum, Money.val_zero, zero_add, total, worth, List.map_map]
      rfl
    · intro total x r h
      obtain ⟨sign, hsign, h⟩ := bind_eq_ok.mp h
      obtain ⟨part, hpart, h⟩ := bind_eq_ok.mp h
      obtain ⟨p, hp, h⟩ := bind_eq_ok.mp h
      rw [add_val h, mulI_val hp, mul_val hpart, fromI128_val_d hsign, term]
      push_cast
      split <;> simp_all
  rw [net, ← htotal]
  exact div_val h

theorem kept_val {shaded : Side} {scale r : Money} {priced : List (ComboLeg × Money)}
    (h : Sim.Snapshot.kept (Arith.code D).exact shaded scale priced = .ok r) :
    kept shaded scale.val (worth priced) = .ok r.val := by
  obtain ⟨t, ht, h⟩ := bind_eq_ok.mp h
  have htotal : t.val = (priced.map fun x => if x.1.side ≠ shaded then (x.1.ratio : ℚ) * x.2.val * multiplierOf x.1.contract
      else 0).sum := by
    have hsum := foldlM_val (g := fun x : ComboLeg × Money =>
      if x.1.side ≠ shaded then (x.1.ratio : ℚ) * x.2.val * multiplierOf x.1.contract else 0) ?_ ht
    · rw [hsum, Money.val_zero, zero_add]
    · intro total x r h
      split at h
      · rename_i hside
        obtain ⟨ratio, hratio, h⟩ := bind_eq_ok.mp h
        obtain ⟨part, hpart, h⟩ := bind_eq_ok.mp h
        obtain ⟨p, hp, h⟩ := bind_eq_ok.mp h
        rw [add_val h, mulI_val hp, mul_val hpart, fromI128_val_d hratio, if_pos hside]
      · rename_i hside
        cases h
        rw [if_neg hside, add_zero]
  rw [kept, worth, List.map_map]
  convert div_val h using 2
  rw [htotal]
  rfl

theorem largest_val (shaded : Side) (priced : List (ComboLeg × Money)) :
    largest shaded (worth priced) = Sim.Snapshot.largest shaded priced := by
  rw [largest, Sim.Snapshot.largest, worth, List.zipIdx_map, List.foldl_map]
  have hnone : (none : Option (Nat × ℚ)) = (none : Option (Nat × Money)).map fun b => (b.1, b.2.val) := rfl
  rw [hnone]
  refine Eq.trans (congrArg _ (List.foldl_hom (Option.map fun b : Nat × Money => (b.1, b.2.val)) ?_)) (Option.map_map _ _ _)
  intro best x
  by_cases hside : x.1.1.side ≠ shaded
  · simp [larger, hside]
  · cases best with
    | none => simp [larger, hside]
    | some b =>
      by_cases hgt : b.2.val < x.1.2.val
      · have hgt' := Money.gt_iff.2 hgt
        simp [larger, hside, hgt, hgt']
      · have hgt' : ¬ x.1.2.gt b.2 = true := fun h => hgt (Money.gt_iff.1 h)
        simp [larger, hside, hgt, hgt']

/-- The coefficient at the tick. -/
theorem tick_coef (a : Money) : ((if a.exponent ≥ tick then a.coefficient * 10 ^ (a.exponent - tick).toNat
    else Money.shiftRoundU128 a.coefficient (tick - a.exponent).toNat a.isNegative .halfEven : ℕ) : ℚ) * 10 ^ tick =
      roundPlaces 4 ((a.coefficient : ℚ) * 10 ^ a.exponent) := by
  split
  · rename_i hexp
    have hexact := roundPlaces_zpow (K := ℚ) (s := 4) (e := a.exponent) hexp a.coefficient
    rw [Int.cast_natCast] at hexact
    rw [hexact, Money.align hexp]
  · rename_i hexp
    obtain ⟨k, hk⟩ : ∃ k : ℕ, tick - a.exponent = k := ⟨(tick - a.exponent).toNat, by omega⟩
    have hbound : a.coefficient < 2 ^ 128 := a.mantissa_lt.trans (by norm_num [mantissaLimit])
    have hexponent : a.exponent = -(k : ℤ) - (4 : ℕ) := by
      simp only [tick] at hk
      push_cast
      omega
    rw [hk, Int.toNat_natCast, Money.shiftRoundU128_eq hbound, hexponent, ← Money.shiftRoundBig_places _ _ _ a.isNegative]
    rfl

/-- The tick of the venue is the tick of exact arithmetic. -/
theorem quantize_val {a r : Money} (h : d (Sim.quantize a tick) = .ok r) : r.val = quantize a.val := by
  replace h := except_mapError_eq_ok.mp h
  unfold Sim.quantize at h
  split at h
  · rename_i hz
    cases h
    rw [Money.val_parts a, hz]
    simp [quantize]
  · have hcoef := tick_coef a
    dsimp only at h
    generalize (if a.exponent ≥ tick then a.coefficient * 10 ^ (a.exponent - tick).toNat
      else Money.shiftRoundU128 a.coefficient (tick - a.exponent).toNat a.isNegative .halfEven) = coef at h hcoef
    split at h
    · cases h
    · rw [Money.buildBig_val h, hcoef, Money.val_parts a, quantize]
      cases a.isNegative <;> simp [roundPlaces_neg]

theorem settleResidue_val {o : VOrder} {scale residue : Money} {filled out : List Money}
    (h : Sim.Snapshot.settleResidue (Arith.code D).exact o scale residue filled = .ok out) :
    settleResidue o scale.val residue.val (filled.map Money.val) = .ok (out.map Money.val) := by
  unfold Sim.Snapshot.settleResidue at h
  unfold settleResidue
  have hzero : residue.isZero = true ↔ residue.val = 0 := by
    rw [Money.isZero, beq_iff_eq, Money.val, div_eq_zero_iff]
    simp
  split at h
  · rename_i hz
    cases h
    rw [if_pos (hzero.1 hz)]
    rfl
  · rename_i hz
    rw [if_neg fun hv => hz (hzero.2 hv), ← zip_worth, largest_val]
    cases hi : Sim.Snapshot.largest o.side ((legs o).zip filled) with
    | none =>
      rw [hi] at h
      cases h
    | some i =>
      rw [hi] at h
      dsimp only at h ⊢
      rw [List.getElem?_map]
      cases hleg : (legs o)[i]? with
      | none =>
        rw [hleg] at h
        cases h
        rfl
      | some leg =>
        cases hprice : filled[i]? with
        | none =>
          rw [hleg, hprice] at h
          cases h
          rfl
        | some price =>
          rw [hleg, hprice] at h
          obtain ⟨points, hpoints, h⟩ := bind_eq_ok.mp h
          obtain ⟨unit, hunit, h⟩ := bind_eq_ok.mp h
          obtain ⟨step, hstep, h⟩ := bind_eq_ok.mp h
          obtain ⟨moved, hmoved, h⟩ := bind_eq_ok.mp h
          cases h
          have hdiv := div_val hstep
          rw [mul_val hpoints, fromI128_val_d hunit] at hdiv
          simp only [Option.map_some]
          rw [hdiv]
          simp [bind, Except.bind, pure, Except.pure, List.map_set, add_val hmoved]

theorem mapM_val {α : Type} {f : α → R Money} {g : α → ℚ} (hf : ∀ x r, f x = .ok r → r.val = g x) {l : List α}
    {out : List Money} (h : l.mapM f = .ok out) : out.map Money.val = l.map g := by
  induction l generalizing out with
  | nil =>
    cases h
    rfl
  | cons x l ih =>
    rw [List.mapM_cons] at h
    obtain ⟨r, hr, h⟩ := bind_eq_ok.mp h
    obtain ⟨rest, hrest, h⟩ := bind_eq_ok.mp h
    cases h
    rw [List.map_cons, List.map_cons, hf x r hr, ih hrest]

theorem missed_sell (model limit : Money) : missed .sell model.val limit.val = model.lt limit := by
  rw [Bool.eq_iff_iff]
  simp [missed]

theorem missed_buy (model limit : Money) : missed .buy model.val limit.val = model.gt limit := by
  rw [Bool.eq_iff_iff]
  simp [missed]

theorem any_nonpos (l : List Money) : (l.map Money.val).any (· ≤ 0) = l.any (·.mantissa ≤ 0) := by
  rw [List.any_map]
  congr 1
  funext p
  have hpos := Money.val_pos_iff (a := p)
  have hiff : p.val ≤ 0 ↔ p.mantissa ≤ 0 := by rw [← not_lt, ← not_lt, hpos]
  simp [hiff]

theorem quantized_val {side : Side} {factor : Money} (x : ComboLeg × Money) (r : Money)
    (h : (do d (Sim.quantize (← (if x.1.side = side then Ops.mul (Arith.code D).exact x.2 factor else pure x.2 : R Money)) tick))
      = .ok r) : r.val = quantize (if x.1.side = side then x.2.val * factor.val else x.2.val) := by
  obtain ⟨p, hp, h⟩ := bind_eq_ok.mp h
  rw [quantize_val h]
  congr 1
  split at hp
  · rename_i hside
    rw [if_pos hside, mul_val hp]
  · rename_i hside
    cases hp
    rw [if_neg hside]

/-- Where every operation of the venue is exact, its prices are those of exact arithmetic. -/
theorem comboPrices_val {o : VOrder} {limit : Money} {prices : List Money} {out : Option (List Money)}
    (h : Sim.Snapshot.comboPrices (Arith.code D).exact o limit prices = .ok out) :
    comboPrices o limit.val (prices.map Money.val) = .ok (out.map (List.map Money.val)) := by
  obtain ⟨m, hm, h⟩ := bind_eq_ok.mp h
  obtain ⟨scale, hscale, h⟩ := bind_eq_ok.mp h
  obtain ⟨model, hmodel, h⟩ := bind_eq_ok.mp h
  have hscale' := fromI128_val_d hscale
  have hmodel' := net_val hmodel
  rw [hscale', zip_worth] at hmodel'
  have hcombo : comboPrices o limit.val (prices.map Money.val) = if missed o.side model.val limit.val then pure none
      else shadedPrices o m limit.val model.val ((legs o).zip (prices.map Money.val)) := by
    rw [comboPrices, hm]
    simp only [bind, Except.bind]
    rw [hmodel']
  rw [hcombo]
  split at h
  all_goals
    rename_i hside
    dsimp only at h
    rw [hside]
    first | rw [missed_sell] | rw [missed_buy]
    split at h
    · rename_i hmissed
      cases h
      rw [if_pos hmissed]
      rfl
    · rename_i hmissed
      rw [if_neg hmissed]
      obtain ⟨kept, hkept, h⟩ := bind_eq_ok.mp h
      obtain ⟨num, hnum, h⟩ := bind_eq_ok.mp h
      obtain ⟨den, hden, h⟩ := bind_eq_ok.mp h
      obtain ⟨factor, hfactor, h⟩ := bind_eq_ok.mp h
      obtain ⟨filled, hfilled, h⟩ := bind_eq_ok.mp h
      obtain ⟨after, hafter, h⟩ := bind_eq_ok.mp h
      obtain ⟨residue, hresidue, h⟩ := bind_eq_ok.mp h
      obtain ⟨settled, hsettled, h⟩ := bind_eq_ok.mp h
      cases h
      have hkept' := kept_val hkept
      have hfactor' := div_val hfactor
      have hafter' := net_val hafter
      have hsettled' := settleResidue_val hsettled
      rw [hscale', zip_worth] at hkept' hafter'
      rw [add_val hnum, add_val hden] at hfactor'
      rw [hscale', sub_val hresidue] at hsettled'
      have hfilled' := mapM_val (quantized_val (D := D)) hfilled
      rw [hfilled'] at hafter' hsettled'
      have hpriced : (legs o).zip (prices.map Money.val) = worth ((legs o).zip prices) := (zip_worth _ _).symm
      rw [hpriced] at hkept' ⊢
      have hquantized : (worth ((legs o).zip prices)).map
          (fun x => quantize (if x.1.side = o.side then x.2 * factor.val else x.2)) =
          ((legs o).zip prices).map fun x => quantize (if x.1.side = o.side then x.2.val * factor.val else x.2.val) := by
        rw [worth, List.map_map]
        rfl
      simp only [shadedPrices, hkept', hfactor', hquantized, hafter', hsettled', bind, Except.bind, any_nonpos]
      split <;> rfl

/-- The same for any order. -/
theorem fillPrices_val {o : VOrder} {prices : List Money} {out : Option (List Money)}
    (h : Sim.Snapshot.fillPrices (Arith.code D).exact o prices = .ok out) :
    fillPrices o (prices.map Money.val) = .ok (out.map (List.map Money.val)) := by
  unfold Sim.Snapshot.fillPrices at h
  unfold fillPrices
  split at h
  · rename_i hmarket
    obtain ⟨filled, hfilled, h⟩ := bind_eq_ok.mp h
    cases h
    have hval := mapM_val (g := fun p : Money => quantize p.val) (fun p r hr => quantize_val hr) hfilled
    rw [if_pos hmarket, Option.map_some, hval, List.map_map]
    rfl
  · rename_i hmarket
    rw [if_neg hmarket]
    cases hlimit : o.limit with
    | none =>
      rw [hlimit] at h
      cases h
    | some limit =>
      rw [hlimit] at h
      dsimp only at h ⊢
      split at h
      · rename_i hcombo
        rw [if_pos hcombo]
        exact comboPrices_val h
      · rename_i hcombo
        rw [if_neg hcombo]
        cases prices with
        | nil =>
          cases h
          rfl
        | cons price prices =>
          cases h
          cases o.side
          · have hiff := Money.le_iff (a := price) (b := limit)
            by_cases hle : price.val ≤ limit.val
            · simp [hle, hiff.2 hle, pure, Except.pure]
            · simp [hle, mt hiff.1 hle, pure, Except.pure]
          · have hiff := Money.ge_iff (a := price) (b := limit)
            by_cases hge : limit.val ≤ price.val
            · simp [hge, hiff.2 hge, pure, Except.pure]
            · simp [hge, mt hiff.1 hge, pure, Except.pure]

end Venue

end TradeEngine.Sim.Snapshot.Exact
