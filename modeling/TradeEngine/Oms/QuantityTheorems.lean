import TradeEngine.Ledger.ShareTheorems
import TradeEngine.Lib.Apportion
import TradeEngine.Money.Rounds
import TradeEngine.Oms.Plan

/-!
# Quantities split by largest remainder

Shares over weights or fractions: the parts are the exact quotas rounded down, and the places with the largest
remainders are topped up. Which places these are does not matter to the sum.
-/

namespace TradeEngine.Oms

open Lib

variable {D : RustDecimal}

/-! ## Places -/

/-- As many distinct places as asked for, or all of them. -/
theorem firstBy_places {α : Type} (le : α → α → Bool) (keys : List α) (n : Nat) :
    (firstBy le keys n).Nodup ∧ (∀ i ∈ firstBy le keys n, i < keys.length) ∧
      (firstBy le keys n).length = min n keys.length := by
  have hperm : ((keys.zipIdx.insertionSort fun a b => le a.1 b.1).map Prod.snd).Perm (List.range keys.length) := by
    have h := (List.perm_insertionSort (fun a b : α × ℕ => le a.1 b.1) keys.zipIdx).map Prod.snd
    rwa [List.zipIdx_map_snd, ← List.range_eq_range'] at h
  have hsub : List.Sublist (firstBy le keys n) ((keys.zipIdx.insertionSort fun a b => le a.1 b.1).map Prod.snd) :=
    (List.take_sublist _ _).map Prod.snd
  refine ⟨hsub.nodup (hperm.nodup_iff.2 List.nodup_range), fun i hi => ?_, ?_⟩
  · exact List.mem_range.1 (hperm.mem_iff.1 (hsub.mem hi))
  · rw [firstBy, List.length_map, List.length_take, List.length_insertionSort, List.length_zipIdx]

/-! ## Whole shares over whole weights -/

theorem bigInteger_whole {a : Money} {k : ℤ} (h : a.val = k) : bigInteger a = k := by
  obtain ⟨hscale, hmantissa⟩ := Money.mantissa_of_whole h
  have hcoef : (a.coefficient : ℤ) / 10 ^ a.scale = |k| := by
    rw [hscale, pow_zero, Int.ediv_one, Money.coefficient, hmantissa, Int.abs_eq_natAbs]
  rw [bigInteger, hcoef, Money.isNegative, hmantissa]
  by_cases hk : k < 0
  · rw [decide_eq_true hk, if_pos rfl, abs_of_neg hk, neg_neg]
  · rw [decide_eq_false hk, if_neg (by decide), abs_of_nonneg (not_lt.1 hk)]

theorem isIntegral_whole {a : Money} {k : ℤ} (h : a.val = k) : a.isIntegral = true := by
  rw [Money.isIntegral, (Money.mantissa_of_whole h).1, beq_self_eq_true]

/-- The shares of each weight before rounding. -/
def quotas (q : Money) (w : List Money) : List ℚ := w.map fun v => q.val * v.val / total w

theorem sum_quotas {q : Money} {w : List Money} (h : total w ≠ 0) : (quotas q w).sum = q.val := by
  have hmul : ∀ l : List Money, (l.map fun v => q.val * v.val / total w).sum = q.val * total l / total w := by
    intro l
    induction l with
    | nil => simp
    | cons v l ih =>
      rw [List.map_cons, List.sum_cons, ih, total_cons]
      ring
  rw [quotas, hmul, mul_div_assoc, div_self h, mul_one]

theorem sum_bigInteger {w : List Money} (hw : ∀ v ∈ w, ∃ n : ℤ, v.val = n) : ((w.map bigInteger).sum : ℚ) = total w := by
  induction w with
  | nil => simp
  | cons v w ih =>
    obtain ⟨n, hn⟩ := hw v List.mem_cons_self
    rw [List.map_cons, List.sum_cons, Int.cast_add, ih fun x hx => hw x (List.mem_cons_of_mem _ hx), bigInteger_whole hn,
      total_cons, hn]

/-- Integer division rounds each quota down. -/
theorem floor_quotas {q : Money} {w : List Money} {k : ℤ} (hq : q.val = k) (hw : ∀ v ∈ w, ∃ n : ℤ, v.val = n)
    (hpos : 0 < total w) :
    (quotas q w).map Int.floor = (w.map bigInteger).map fun v => k * v / (w.map bigInteger).sum := by
  have hsum := sum_bigInteger hw
  have hW : 0 < (w.map bigInteger).sum := by
    rw [← hsum] at hpos
    exact_mod_cast hpos
  obtain ⟨W, hnat⟩ := Int.eq_ofNat_of_zero_le hW.le
  rw [quotas, List.map_map, List.map_map]
  refine List.map_congr_left fun v hv => ?_
  obtain ⟨n, hn⟩ := hw v hv
  simp only [Function.comp_apply]
  rw [bigInteger_whole hn, ← hsum, hq, hn, hnat, ← Int.cast_mul, Int.cast_natCast, Rat.floor_intCast_div_natCast]

theorem zipIdx_topped (places : List ℕ) (l : List ℤ) :
    (l.zipIdx.map fun (v, i) => if places.contains i then v + 1 else v) = topped places l := rfl

/-- Amounts that fit are held as they are. -/
theorem fromI128_all {l : List ℤ} (h : ∀ v ∈ l, 0 ≤ v ∧ v < 2 ^ 96) :
    ∃ parts, (l.mapM fun v => do
      refuseIf (v < -2 ^ 127 || 2 ^ 127 ≤ v) .overflow ""
      (Money.fromI128 v).mapError derr) = .ok parts ∧ List.Forall₂ (fun (v : ℤ) (p : Money) => p.val = v) l parts := by
  have hone : ∀ v ∈ l, ∃ p : Money, ((do
      refuseIf (v < -2 ^ 127 || 2 ^ 127 ≤ v) .overflow ""
      (Money.fromI128 v).mapError derr) : R Money) = .ok p ∧ p.val = v := by
    intro v hv
    obtain ⟨hlow, hhigh⟩ := h v hv
    obtain ⟨p, hp, hval⟩ := Money.fromI128_ok (k := v) (by omega)
    refine ⟨p, ?_, hval⟩
    simp only [bind_eq_ok, refuseIf_eq_ok, except_mapError_eq_ok]
    refine ⟨(), ?_, hp⟩
    simp only [Bool.or_eq_true, decide_eq_true_eq, not_or, not_lt, not_le]
    constructor
    · linarith
    · linarith
  obtain ⟨parts, hparts⟩ := mapM_ok_of fun v hv => (hone v hv).imp fun p hp => hp.1
  refine ⟨parts, hparts, ?_⟩
  refine ((List.forall₂_and_left _ _).2 ⟨fun v hv => hv, mapM_ok hparts⟩).imp ?_
  rintro v p ⟨hv, hp⟩
  obtain ⟨p', hp', hval⟩ := hone v hv
  rw [hp'] at hp
  cases hp
  exact hval

/-- No part of a sum of non-negative parts exceeds it. -/
theorem le_of_sum {l : List ℤ} {k : ℤ} (hpos : ∀ v ∈ l, 0 ≤ v) (hsum : l.sum = k) : ∀ v ∈ l, v ≤ k := by
  intro v hv
  rw [← hsum]
  exact List.single_le_sum hpos v hv

theorem total_of_forall₂ {l : List ℤ} {parts : List Money} (h : List.Forall₂ (fun (v : ℤ) (p : Money) => p.val = v) l parts) :
    total parts = (l.sum : ℤ) := by
  induction h with
  | nil => simp
  | cons hv _ ih => rw [total_cons, List.sum_cons, Int.cast_add, hv, ih]

theorem total_pos {w : List Money} (hne : w ≠ []) (hpos : ∀ v ∈ w, 0 < v.val) : 0 < total w := by
  obtain ⟨v, l, rfl⟩ := List.exists_cons_of_ne_nil hne
  have hv := hpos v List.mem_cons_self
  have hle := val_le_total (fun x hx => (hpos x hx).le) (List.mem_cons_self (a := v) (l := l))
  linarith

/-- A part of a target: whole, and within one of its quota. -/
structure PartOf (quota : ℚ) (p : Money) : Prop where
  whole : ∃ n : ℤ, p.val = n
  nonneg : 0 ≤ p.val
  near : |p.val - quota| ≤ 1

theorem allocateShares_spec {q : Money} {w : List Money} {k : ℤ} (hlen : w.length < vecLimit) (hq : q.val = k) (hk : 0 < k)
    (hne : w ≠ []) (hw : ∀ v ∈ w, (∃ n : ℤ, v.val = n) ∧ 0 < v.val) :
    ∃ parts, allocateShares q w = .ok parts ∧ List.Forall₂ PartOf (quotas q w) parts ∧ total parts = q.val := by
  have hwhole : ∀ v ∈ w, ∃ n : ℤ, v.val = n := fun v hv => (hw v hv).1
  have hpos : 0 < total w := total_pos hne fun v hv => (hw v hv).2
  have hquotas : ∀ x ∈ quotas q w, 0 ≤ x := by
    intro x hx
    obtain ⟨v, hv, rfl⟩ := List.mem_map.1 hx
    have hq0 : 0 ≤ q.val := by
      rw [hq]
      exact_mod_cast hk.le
    exact div_nonneg (mul_nonneg hq0 (hw v hv).2.le) hpos.le
  have hsum : (quotas q w).sum = k := by rw [sum_quotas hpos.ne', hq]
  have hlength : (quotas q w).length = w.length := List.length_map _
  have hnil : quotas q w ≠ [] := by
    rw [← List.length_pos_iff, hlength, List.length_pos_iff]
    exact hne
  obtain ⟨hrest0, hrestlt, -⟩ := sum_floor hsum
  have hrestlt := hrestlt hnil
  rw [hlength] at hrestlt
  -- the places topped up: as many as the quotas rounded down leave
  have hplaces := firstBy_places (fun a b : ℤ => decide (b ≤ a))
    ((w.map bigInteger).map fun v => k * v % (w.map bigInteger).sum) (k - ((quotas q w).map Int.floor).sum).toNat
  generalize hchosen : firstBy (fun a b : ℤ => decide (b ≤ a))
    ((w.map bigInteger).map fun v => k * v % (w.map bigInteger).sum)
      (k - ((quotas q w).map Int.floor).sum).toNat = places at hplaces
  obtain ⟨hnodup, hlt, hcount⟩ := hplaces
  rw [List.length_map, List.length_map] at hlt hcount
  obtain ⟨htotal, hnear⟩ := apportion (k := k) hquotas hnodup (by rwa [hlength]) (by rw [hcount]; omega)
  have hparts : ∀ v ∈ topped places ((quotas q w).map Int.floor), 0 ≤ v := by
    intro v hv
    obtain ⟨x, -, hx, -⟩ := forall₂_right hnear v hv
    exact hx
  have hfits : ∀ v ∈ topped places ((quotas q w).map Int.floor), 0 ≤ v ∧ v < 2 ^ 96 := by
    intro v hv
    have hle := le_of_sum hparts htotal v hv
    have hlimit := Money.natAbs_lt_limit hq
    exact ⟨hparts v hv, by omega⟩
  obtain ⟨parts, hok, hvals⟩ := fromI128_all hfits
  refine ⟨parts, ?_, ?_, by rw [total_of_forall₂ hvals, htotal, hq]⟩
  · have hint : ¬ (w.any (!·.isIntegral)) = true := by
      simp only [List.any_eq_true, Bool.not_eq_true', not_exists, not_and]
      intro v hv
      obtain ⟨n, hn⟩ := hwhole v hv
      rw [isIntegral_whole hn]
      decide
    have hrange : ¬ (decide (k - ((quotas q w).map Int.floor).sum < 0) ||
        decide (usizeLimit ≤ k - ((quotas q w).map Int.floor).sum)) = true := by
      have : (w.length : ℤ) < usizeLimit := by
        rw [usizeLimit]
        exact_mod_cast hlen
      simp only [Bool.or_eq_true, decide_eq_true_eq, not_or, not_lt, not_le]
      exact ⟨hrest0, by omega⟩
    rw [floor_quotas hq hwhole hpos] at hrange hok hchosen
    simp only [allocateShares, quantity, bigInteger_whole hq, isIntegral_whole hq, bind_eq_ok, refuseIf_eq_ok]
    exact ⟨(), by simp, (), hint, (), hrange, by rw [hchosen, zipIdx_topped]; exact hok⟩
  · refine (forall₂_trans hnear hvals).imp ?_
    rintro x p ⟨v, ⟨hv0, hnear⟩, hp⟩
    exact ⟨⟨v, hp⟩, by rw [hp]; exact_mod_cast hv0, by rw [hp]; exact hnear⟩

theorem allocate_spec {q : Money} {w : List Money} {k : ℤ} {t : Money} (hlen : w.length < vecLimit) (hq : q.val = k)
    (hk : 0 < k) (hne : w ≠ []) (hw : ∀ v ∈ w, (∃ n : ℤ, v.val = n) ∧ 0 < v.val) (ht : sum (.code D) w = .ok t) :
    ∃ parts, allocate (.code D) q w true = .ok parts ∧ List.Forall₂ PartOf (quotas q w) parts ∧ total parts = q.val := by
  obtain ⟨parts, hparts, hspec⟩ := allocateShares_spec hlen hq hk hne hw
  refine ⟨parts, ?_, hspec⟩
  have hpos : ¬ (w.any (·.le .zero)) = true := by
    simp only [List.any_eq_true, not_exists, not_and, Money.le_iff, Money.val_zero, not_le]
    exact fun v hv => (hw v hv).2
  rw [allocate, if_neg hne]
  simp only [bind_eq_ok, refuseIf_eq_ok, if_true]
  exact ⟨(), hpos, t, ht, hparts⟩

/-! ## Sums that fit -/

theorem rounded_scaled {n : ℕ} {e : ℤ} (hn : n < 10 ^ 28) (he : -28 ≤ e) :
    Money.rounded ((n : ℚ) * 10 ^ e) = n * 10 ^ e := by
  have hplaces := roundPlaces_zpow (K := ℚ) (s := maxScale) he n
  rw [Int.cast_natCast] at hplaces
  rw [Money.rounded, prec, roundDigits_natCast hn, hplaces]

/-- A number of at most 28 digits, or ten to the 28th, is kept. -/
theorem rounded_fits {k : ℤ} {s : ℕ} (hs : s ≤ 28) (hk : |k| ≤ 10 ^ 28) :
    Money.rounded ((k : ℚ) / 10 ^ s) = (k : ℚ) / 10 ^ s := by
  have hnat : ∀ n : ℕ, n ≤ 10 ^ 28 → Money.rounded ((n : ℚ) / 10 ^ s) = (n : ℚ) / 10 ^ s := by
    intro n hn
    have hdiv : ∀ x : ℚ, x / 10 ^ s = x * 10 ^ (-(s : ℤ)) := fun x => by rw [zpow_neg, zpow_natCast, div_eq_mul_inv]
    rw [hdiv]
    rcases hn.lt_or_eq with hlt | rfl
    · exact rounded_scaled hlt (by omega)
    · have hone : ((10 ^ 28 : ℕ) : ℚ) * 10 ^ (-(s : ℤ)) = ((1 : ℕ) : ℚ) * 10 ^ ((28 : ℤ) - s) := by
        rw [sub_eq_add_neg, zpow_add₀ (by norm_num)]
        norm_num
      rw [hone]
      exact rounded_scaled (by norm_num) (by omega)
  obtain ⟨n, rfl | rfl⟩ := Int.eq_nat_or_neg k
  · rw [Int.cast_natCast]
    apply hnat
    have : ((n : ℤ)) ≤ 10 ^ 28 := by rwa [Nat.abs_cast] at hk
    exact_mod_cast this
  · have hle : n ≤ 10 ^ 28 := by
      have : ((n : ℤ)) ≤ 10 ^ 28 := by rwa [abs_neg, Nat.abs_cast] at hk
      exact_mod_cast this
    rw [Int.cast_neg, Int.cast_natCast, neg_div, Money.rounded_neg, hnat n hle]

/-- A multiple of the last of `s` places. -/
def OnScale (s : ℕ) (x : ℚ) : Prop := ∃ k : ℤ, x = k / 10 ^ s

theorem OnScale.add {s : ℕ} {x y : ℚ} (hx : OnScale s x) (hy : OnScale s y) : OnScale s (x + y) := by
  obtain ⟨j, rfl⟩ := hx
  obtain ⟨k, rfl⟩ := hy
  exact ⟨j + k, by push_cast; ring⟩

theorem OnScale.sub {s : ℕ} {x y : ℚ} (hx : OnScale s x) (hy : OnScale s y) : OnScale s (x - y) := by
  obtain ⟨j, rfl⟩ := hx
  obtain ⟨k, rfl⟩ := hy
  exact ⟨j - k, by push_cast; ring⟩

theorem onScale_whole {x : ℚ} {k : ℤ} (h : x = k) : OnScale 0 x := ⟨k, by rw [h, pow_zero, div_one]⟩

theorem onScale_money (a : Money) : OnScale 28 a.val := by
  have hscale : (10 : ℚ) ^ 28 = 10 ^ a.scale * 10 ^ (28 - a.scale) := by
    have hle : a.scale ≤ 28 := a.scale_le
    rw [← pow_add, Nat.add_sub_cancel' hle]
  refine ⟨a.mantissa * 10 ^ (28 - a.scale), ?_⟩
  rw [Money.val, hscale]
  push_cast
  rw [mul_div_mul_right _ _ (by positivity)]

theorem OnScale.rounded {s : ℕ} {x : ℚ} (hx : OnScale s x) (hs : s ≤ 28) (hle : |x| * 10 ^ s ≤ 10 ^ 28) :
    Money.rounded x = x := by
  obtain ⟨k, rfl⟩ := hx
  refine rounded_fits hs ?_
  rw [abs_div, abs_of_pos (by positivity : (0 : ℚ) < 10 ^ s), div_mul_cancel₀ _ (by positivity)] at hle
  exact_mod_cast hle

section Fits

variable {s : ℕ} {a b r : Money} (hs : s ≤ 28)

include hs

theorem add_fits (ha : OnScale s a.val) (hb : OnScale s b.val) (hle : |a.val + b.val| * 10 ^ s ≤ 10 ^ 28)
    (h : Ops.add (.code D) a b = .ok r) : r.val = a.val + b.val := by
  have hr : Money.add a b = .ok r := by simpa [Ops.add, Arith.code] using h
  exact (((Money.add_spec a b).ok r).1 hr).1.trans ((ha.add hb).rounded hs hle)

theorem sub_fits (ha : OnScale s a.val) (hb : OnScale s b.val) (hle : |a.val - b.val| * 10 ^ s ≤ 10 ^ 28)
    (h : Ops.sub (.code D) a b = .ok r) : r.val = a.val - b.val := by
  have hr : Money.sub a b = .ok r := by simpa [Ops.sub, Arith.code] using h
  exact (((Money.sub_spec a b).ok r).1 hr).1.trans ((ha.sub hb).rounded hs hle)

theorem sum_fits {l : List Money} {t : Money} (hl : ∀ v ∈ l, OnScale s v.val ∧ 0 ≤ v.val)
    (hle : total l * 10 ^ s ≤ 10 ^ 28) (h : sum (.code D) l = .ok t) : t.val = total l := by
  have hfold : ∀ (l : List Money) (acc : Money), (∀ v ∈ l, OnScale s v.val ∧ 0 ≤ v.val) → OnScale s acc.val →
      0 ≤ acc.val → (acc.val + total l) * 10 ^ s ≤ 10 ^ 28 → l.foldlM (Ops.add (.code D)) acc = .ok t →
        t.val = acc.val + total l := by
    intro l
    induction l with
    | nil =>
      intro acc _ _ _ _ h
      cases h
      simp
    | cons v l ih =>
      intro acc hl hacc hacc0 hle h
      obtain ⟨next, hnext, h⟩ := bind_eq_ok.1 h
      have hv := hl v List.mem_cons_self
      have hrest : 0 ≤ total l := List.sum_nonneg (by
        intro x hx
        obtain ⟨m, hm, rfl⟩ := List.mem_map.1 hx
        exact (hl m (List.mem_cons_of_mem _ hm)).2)
      rw [total_cons] at hle ⊢
      have hten : (0 : ℚ) < 10 ^ s := by positivity
      have hval := add_fits hs hacc hv.1 (by
        rw [abs_of_nonneg (add_nonneg hacc0 hv.2)]
        nlinarith) hnext
      have := ih next (fun x hx => hl x (List.mem_cons_of_mem _ hx)) (hval ▸ hacc.add hv.1)
        (hval ▸ add_nonneg hacc0 hv.2) (by rw [hval]; linarith) h
      rw [this, hval]
      ring
  have hzero := hfold l .zero hl ⟨0, by simp⟩ (by simp) (by simpa using hle) h
  simpa using hzero

end Fits

/-! ## Whole shares over fractions -/

theorem floor_all {exactly floors : List Money} (hpos : ∀ v ∈ exactly, 0 ≤ v.val) (h : exactly.mapM floor = .ok floors) :
    List.Forall₂ (fun (v : ℤ) (p : Money) => p.val = v) ((exactly.map Money.val).map Int.floor) floors := by
  rw [List.map_map, List.forall₂_map_left_iff]
  refine ((List.forall₂_and_left _ _).2 ⟨fun v hv => hpos v hv, mapM_ok h⟩).imp ?_
  rintro v p ⟨hv, hp⟩
  rw [floor, except_mapError_eq_ok] at hp
  exact Money.toIntegral_floor hv hp

theorem topUps_of_lt {remaining : ℤ} {n : ℕ} (h0 : 0 ≤ remaining) (hlt : remaining < usizeLimit) :
    topUps remaining n = remaining.toNat := by
  rw [topUps, if_neg (not_lt.2 h0), if_pos hlt]

theorem forall₂_zipIdx {α β : Type} {R : α → β → Prop} {l : List α} {m : List β} (h : List.Forall₂ R l m) (n : ℕ) :
    List.Forall₂ (fun a b => R a.1 b.1 ∧ a.2 = b.2) (l.zipIdx n) (m.zipIdx n) := by
  induction h generalizing n with
  | nil => exact .nil
  | cons hab _ ih => exact .cons ⟨hab, rfl⟩ (ih (n + 1))

/-- Topping up in money is topping up in whole numbers, as long as the results fit. -/
theorem topped_vals {places : List ℕ} {fs : List ℤ} {floors parts : List Money}
    (hfloors : List.Forall₂ (fun (v : ℤ) (p : Money) => p.val = v) fs floors)
    (hfit : ∀ v ∈ topped places fs, 0 ≤ v ∧ v ≤ 10 ^ 28)
    (h : (floors.zipIdx.mapM fun (v, i) => if places.contains i then Ops.add (.code D) v one else pure v) = .ok parts) :
    List.Forall₂ (fun (v : ℤ) (p : Money) => p.val = v) (topped places fs) parts := by
  rw [topped, List.forall₂_map_left_iff]
  refine ((List.forall₂_and_left _ _).2
    ⟨fun a ha => ha, forall₂_trans (forall₂_zipIdx hfloors 0) (mapM_ok h)⟩).imp ?_
  rintro ⟨v, i⟩ p ⟨hmem, ⟨f, j⟩, ⟨hf, hij⟩, hp⟩
  dsimp only at hf hij hp ⊢
  subst hij
  have hv := hfit _ (List.mem_map_of_mem hmem)
  dsimp only at hv
  by_cases hi : places.contains i = true
  · rw [if_pos hi] at hp hv ⊢
    have hone : one.val = (1 : ℤ) := by simp [one, Money.one, Money.val]
    have hval := add_fits (Nat.zero_le 28) (onScale_whole hf) (onScale_whole hone) (by
      rw [hf, hone, pow_zero, mul_one]
      exact_mod_cast abs_le.2 ⟨by omega, hv.2⟩) hp
    rw [hval, hf, hone, Int.cast_add]
  · rw [if_neg hi] at hp ⊢
    cases hp
    exact hf

/-- Quotas that add up to a whole number of at most 28 digits. -/
theorem roundShares_spec {q : Money} {exactly parts : List Money} {k : ℤ} (hlen : exactly.length ≤ vecLimit)
    (hq : q.val = k) (hk : k ≤ 10 ^ 28) (hpos : ∀ v ∈ exactly, 0 ≤ v.val) (hsum : total exactly = q.val)
    (h : roundShares (.code D) q exactly = .ok parts) :
    List.Forall₂ PartOf (exactly.map Money.val) parts ∧ total parts = q.val := by
  simp only [roundShares, bind_eq_ok] at h
  obtain ⟨floors, hfloors, t, ht, rest, hrest, keys, hkeys, h⟩ := h
  have hquotas : ∀ x ∈ exactly.map Money.val, 0 ≤ x := by
    intro x hx
    obtain ⟨v, hv, rfl⟩ := List.mem_map.1 hx
    exact hpos v hv
  have hsum : (exactly.map Money.val).sum = k := hsum.trans hq
  obtain ⟨hrest0, hrestlt, hrestle⟩ := sum_floor hsum
  have hvals := floor_all hpos hfloors
  generalize hfs : (exactly.map Money.val).map Int.floor = fs at hvals hrest0 hrestlt hrestle
  have hfloor0 : ∀ v ∈ floors, OnScale 0 v.val ∧ 0 ≤ v.val := by
    intro v hv
    obtain ⟨n, hn, hval⟩ := forall₂_right hvals v hv
    rw [← hfs] at hn
    obtain ⟨x, hx, rfl⟩ := List.mem_map.1 hn
    refine ⟨onScale_whole hval, ?_⟩
    rw [hval]
    exact_mod_cast Int.floor_nonneg.2 (hquotas x hx)
  have htotal : total floors = (fs.sum : ℤ) := total_of_forall₂ hvals
  have hkq : (k : ℚ) ≤ 10 ^ 28 := by exact_mod_cast hk
  have hle : (fs.sum : ℚ) ≤ k := by
    have : fs.sum ≤ k := by omega
    exact_mod_cast this
  have ht := sum_fits (Nat.zero_le 28) hfloor0 (by rw [htotal, pow_zero, mul_one]; linarith) ht
  rw [htotal] at ht
  have hfs0 : 0 ≤ fs.sum := by
    have : 0 ≤ total floors := List.sum_nonneg (by
      intro x hx
      obtain ⟨m, hm, rfl⟩ := List.mem_map.1 hx
      exact (hfloor0 m hm).2)
    rw [htotal] at this
    exact_mod_cast this
  have hrestval := sub_fits (Nat.zero_le 28) (onScale_whole hq) (onScale_whole ht) (by
    rw [hq, ht, pow_zero, mul_one]
    have h0 : (0 : ℚ) ≤ fs.sum := by exact_mod_cast hfs0
    rw [abs_of_nonneg (by linarith)]
    linarith) hrest
  have hbig : bigInteger rest = k - fs.sum := bigInteger_whole (by rw [hrestval, hq, ht]; push_cast; ring)
  have hlength : keys.length = exactly.length := by
    have hzip := (mapM_ok hkeys).length_eq
    have hfl := (mapM_ok hfloors).length_eq
    rw [List.length_zip] at hzip
    omega
  have hlimit : k - fs.sum < usizeLimit := by
    have hvec : (exactly.length : ℤ) ≤ usizeLimit := by
      rw [usizeLimit]
      exact_mod_cast hlen
    by_cases hnil : exactly.map Money.val = []
    · rw [hnil, List.length_nil] at hrestle
      have hpos : (0 : ℤ) < usizeLimit := by decide
      omega
    · have := hrestlt hnil
      rw [List.length_map] at this
      omega
  rw [hbig, topUps_of_lt hrest0 hlimit] at h
  obtain ⟨hnodup, hlt, hcount⟩ := firstBy_places Money.le keys (k - fs.sum).toNat
  generalize firstBy Money.le keys (k - fs.sum).toNat = places at h hnodup hlt hcount
  rw [List.length_map] at hrestle
  obtain ⟨hplaced, hnear⟩ := apportion (k := k) hquotas hnodup (by rwa [List.length_map, ← hlength]) (by
    rw [hcount, hlength, hfs]
    omega)
  rw [hfs] at hplaced hnear
  have hparts : ∀ v ∈ topped places fs, 0 ≤ v := by
    intro v hv
    obtain ⟨x, -, hx, -⟩ := forall₂_right hnear v hv
    exact hx
  have hpartvals := topped_vals hvals
    (fun v hv => ⟨hparts v hv, (le_of_sum hparts hplaced v hv).trans hk⟩) h
  refine ⟨(forall₂_trans hnear hpartvals).imp ?_, by rw [total_of_forall₂ hpartvals, hplaced, hq]⟩
  rintro x p ⟨v, ⟨hv0, hv⟩, hp⟩
  exact ⟨⟨v, hp⟩, by rw [hp]; exact_mod_cast hv0, by rw [hp]; exact hv⟩

theorem map_eq_map_of_forall₂ {α β γ : Type} {f : α → γ} {g : β → γ} {l : List α} {m : List β}
    (h : List.Forall₂ (fun a b => f a = g b) l m) : l.map f = m.map g := by
  induction h with
  | nil => rfl
  | cons hab _ ih => rw [List.map_cons, List.map_cons, hab, ih]

/-- No product of the quantity with a fraction, or with what they leave of one, is rounded. -/
def ExactProducts (q : Money) (w : List Money) : Prop :=
  ∀ v p, (v ∈ w ∨ v.val = 1 - total w) → Money.mul q v = .ok p → p.val = q.val * v.val

theorem fractions_spec {q : Money} {w parts : List Money} {k : ℤ} (hlen : w.length < vecLimit) (hq : q.val = k) (hk0 : 0 < k)
    (hk : k ≤ 10 ^ 28) (hw : ∀ v ∈ w, 0 < v.val) (hle : total w ≤ 1) (hproducts : ExactProducts q w)
    (h : fractions (.code D) q w true = .ok parts) :
    List.Forall₂ (fun v p => PartOf (q.val * v.val) p ∧ 0 < p.val) w parts ∧ total parts ≤ q.val ∧
      (total w = 1 → total parts = q.val) := by
  simp only [fractions, bind_eq_ok, if_true, pure_eq_ok, refuseIf_eq_ok] at h
  obtain ⟨-, -, t, ht, runner, hrunner, exactly, hexactly, portions, hportions, -, hpositive, rfl⟩ := h
  have ht := sum_fits (le_refl 28) (fun v hv => ⟨onScale_money v, (hw v hv).le⟩) (by linarith) ht
  have hone : one.val = 1 := by simp [one, Money.one, Money.val]
  have hw0 : 0 ≤ total w := List.sum_nonneg (by
    intro x hx
    obtain ⟨m, hm, rfl⟩ := List.mem_map.1 hx
    exact (hw m hm).le)
  have hrunner := sub_fits (le_refl 28) (onScale_money one) (onScale_money t) (by
    rw [hone, ht, abs_of_nonneg (by linarith)]
    linarith) hrunner
  rw [hone, ht] at hrunner
  generalize hweights : (if runner.gt .zero then w ++ [runner] else w) = weights at hexactly
  have hgt : runner.gt .zero = true ↔ total w < 1 := by
    rw [Money.gt_iff, Money.val_zero, hrunner, sub_pos]
  -- the fractions, and the runner where they leave one: together they are one
  have hshape : (weights = w ∧ total w = 1) ∨ (weights = w ++ [runner] ∧ total w < 1) := by
    by_cases hlt : total w < 1
    · exact .inr ⟨by rw [← hweights, if_pos (hgt.2 hlt)], hlt⟩
    · exact .inl ⟨by rw [← hweights, if_neg fun h => hlt (hgt.1 h)], le_antisymm hle (not_lt.1 hlt)⟩
  have htotal : total weights = 1 := by
    rcases hshape with ⟨rfl, h1⟩ | ⟨rfl, -⟩
    · exact h1
    · rw [total, List.map_append, List.sum_append]
      simp only [List.map_cons, List.map_nil, List.sum_cons, List.sum_nil]
      rw [hrunner, ← total]
      ring
  have hmem : ∀ v ∈ weights, (v ∈ w ∨ v.val = 1 - total w) ∧ 0 ≤ v.val := by
    intro v hv
    rcases hshape with ⟨rfl, -⟩ | ⟨rfl, hlt⟩
    · exact ⟨.inl hv, (hw v hv).le⟩
    · rw [List.mem_append, List.mem_singleton] at hv
      rcases hv with hv | rfl
      · exact ⟨.inl hv, (hw v hv).le⟩
      · exact ⟨.inr hrunner, by rw [hrunner]; linarith⟩
  have htake : weights.take w.length = w := by
    rcases hshape with ⟨rfl, -⟩ | ⟨rfl, -⟩
    · exact List.take_length
    · exact List.take_left
  have hlength : weights.length ≤ w.length + 1 := by
    rcases hshape with ⟨rfl, -⟩ | ⟨rfl, -⟩
    · omega
    · rw [List.length_append, List.length_singleton]
  have hexact : weights.map (fun v => q.val * v.val) = exactly.map Money.val := by
    refine map_eq_map_of_forall₂ (((List.forall₂_and_left _ _).2 ⟨fun v hv => hmem v hv, mapM_ok hexactly⟩).imp ?_)
    rintro v p ⟨hv, hp⟩
    have hp : Money.mul q v = .ok p := by simpa [Ops.mul, Arith.code] using hp
    exact (hproducts v p hv.1 hp).symm
  have hq0 : 0 < q.val := by
    rw [hq]
    exact_mod_cast hk0
  have hpos : ∀ x ∈ exactly, 0 ≤ x.val := by
    intro x hx
    have hmap : x.val ∈ weights.map fun v => q.val * v.val := by
      rw [hexact]
      exact List.mem_map_of_mem hx
    obtain ⟨v, hv, hval⟩ := List.mem_map.1 hmap
    rw [← hval]
    exact mul_nonneg hq0.le (hmem v hv).2
  have hsum : total exactly = q.val := by
    rw [total, ← hexact, List.sum_map_mul_left, ← total, htotal, mul_one]
  have hportionsLen := (mapM_ok hexactly).length_eq
  obtain ⟨hpart, hall⟩ := roundShares_spec (by omega) hq hk hpos hsum hportions
  rw [← hexact, List.forall₂_map_left_iff] at hpart
  have hkept := List.forall₂_take w.length hpart
  rw [htake] at hkept
  have hpositive : ∀ p ∈ portions.take w.length, 0 < p.val := by
    simpa [List.any_eq_true, Money.le_iff] using hpositive
  have hsplit : total (portions.take w.length) + total (portions.drop w.length) = q.val := by
    rw [← hall, total, total, ← List.sum_append, ← List.map_append, List.take_append_drop, total]
  have hrunner0 : 0 ≤ total (portions.drop w.length) := List.sum_nonneg (by
    intro x hx
    obtain ⟨p, hp, rfl⟩ := List.mem_map.1 hx
    obtain ⟨v, -, hpart⟩ := forall₂_right hpart p (List.mem_of_mem_drop hp)
    exact hpart.nonneg)
  refine ⟨?_, by linarith, fun h1 => ?_⟩
  · refine List.Forall₂.flip (((List.forall₂_and_left _ _).2 ⟨hpositive, hkept.flip⟩).imp ?_)
    rintro p v ⟨hp0, hp⟩
    exact ⟨hp, hp0⟩
  · obtain ⟨rfl, -⟩ : weights = w ∧ total w = 1 := by
      rcases hshape with hshape | ⟨-, hlt⟩
      · exact hshape
      · exact absurd h1 hlt.ne
    rw [List.take_of_length_le hpart.length_eq.ge, hall]

/-! ## Both -/

/-- Whole shares over whole weights, and over fractions of a quantity of at most 28 digits. -/
theorem largest_remainder (D : RustDecimal) (q : Money) (w : Slice Money) (k : ℤ) (hq : q.val = k) (hk : 0 < k) :
    (w.1 ≠ [] → (∀ v ∈ w.1, (∃ n : ℤ, v.val = n) ∧ 0 < v.val) →
      (∀ e, sum (.code D) w.1 = .error e → allocate (.code D) q w.1 true = .error e) ∧
      ∀ t, sum (.code D) w.1 = .ok t → ∃ parts, allocate (.code D) q w.1 true = .ok parts ∧ total parts = q.val ∧
        List.Forall₂ (fun v p => PartOf (q.val * v.val / total w.1) p) w.1 parts) ∧
    (k ≤ 10 ^ 28 → (∀ v ∈ w.1, 0 < v.val) → total w.1 ≤ 1 → ExactProducts q w.1 →
      ∀ parts, fractions (.code D) q w.1 true = .ok parts → total parts ≤ q.val ∧ (total w.1 = 1 → total parts = q.val) ∧
        List.Forall₂ (fun v p => PartOf (q.val * v.val) p ∧ 0 < p.val) w.1 parts) := by
  constructor
  · intro hne hw
    constructor
    · intro e he
      have hpos : ¬ (w.1.any (·.le .zero)) = true := by
        simp only [List.any_eq_true, not_exists, not_and, Money.le_iff, Money.val_zero, not_le]
        exact fun v hv => (hw v hv).2
      rw [allocate, if_neg hne, refuseIf, if_neg hpos, he]
      rfl
    · intro t ht
      obtain ⟨parts, hparts, hspec, htotal⟩ := allocate_spec w.2 hq hk hne hw ht
      rw [quotas, List.forall₂_map_left_iff] at hspec
      exact ⟨parts, hparts, htotal, hspec⟩
  · intro hle hw hone hproducts parts h
    obtain ⟨hparts, htotal, hall⟩ := fractions_spec w.2 hq hk hle hw hone hproducts h
    exact ⟨htotal, hall, hparts⟩

namespace Sample

theorem quarter_lt : (25 : Int).natAbs < mantissaLimit := by decide

theorem quarter_scale : 2 ≤ maxScale := by decide

theorem quarter_canonical : 2 = 0 ∨ (25 : Int) % 10 ≠ 0 := by decide

theorem half_lt : (5 : Int).natAbs < mantissaLimit := by decide

theorem half_scale : 1 ≤ maxScale := by decide

theorem half_canonical : 1 = 0 ∨ (5 : Int) % 10 ≠ 0 := by decide

/-- A quarter and a half. -/
def quarterAndHalf : List Money :=
  [⟨25, 2, quarter_lt, quarter_scale, quarter_canonical⟩, ⟨5, 1, half_lt, half_scale, half_canonical⟩]

/-- Nine fractions just above a tenth, and what they leave of one. -/
def tenths : List Money :=
  List.replicate 9 ⟨10 ^ 27 + 2, 28, by decide, by decide, by decide⟩ ++
    [⟨10 ^ 27 - 18, 28, by decide, by decide, by decide⟩]

end Sample

/-- Seven shares: `2`, `2` and `3` over the weights `3`, `3` and `4`; `2` and `3` for a quarter and a half. -/
theorem largest_remainder_seven :
    (∃ parts, allocate (.code Sample.decimal) (.ofNat 7) [.ofNat 3, .ofNat 3, .ofNat 4] true = .ok parts ∧
      total parts = 7) ∧
    (fractions (.code Sample.decimal) (.ofNat 7) Sample.quarterAndHalf true).toOption = some [.ofNat 2, .ofNat 3] ∧
    total [.ofNat 2, .ofNat 3] ≤ 7 := by
  have hval : ∀ n < 11, (Money.ofNat n).val = n := fun n hn => Money.ofNat_val (by simp only [mantissaLimit]; omega)
  have hseven : (Money.ofNat 7).val = (7 : ℤ) := by
    rw [hval 7 (by omega)]
    rfl
  refine ⟨?_, ?_⟩
  · have hsum : (sum (.code Sample.decimal) [.ofNat 3, .ofNat 3, .ofNat 4]).toOption = some (.ofNat 10) := by decide +kernel
    obtain ⟨-, hok⟩ := (largest_remainder Sample.decimal (.ofNat 7) ⟨[.ofNat 3, .ofNat 3, .ofNat 4], by decide⟩ 7 hseven
      (by decide)).1 (by simp) (by
        intro v hv
        simp only [List.mem_cons, List.not_mem_nil, or_false] at hv
        rcases hv with rfl | rfl | rfl
        · rw [hval 3 (by omega)]
          exact ⟨⟨3, rfl⟩, by norm_num⟩
        · rw [hval 3 (by omega)]
          exact ⟨⟨3, rfl⟩, by norm_num⟩
        · rw [hval 4 (by omega)]
          exact ⟨⟨4, rfl⟩, by norm_num⟩)
    obtain ⟨parts, hparts, htotal, -⟩ := hok _ (toOption_eq_some.1 hsum)
    exact ⟨parts, hparts, by rw [htotal, hseven]; rfl⟩
  · have hparts : (fractions (.code Sample.decimal) (.ofNat 7) Sample.quarterAndHalf true).toOption =
        some [.ofNat 2, .ofNat 3] := by decide +kernel
    have hproducts : ∀ v ∈ Sample.quarterAndHalf, ((Money.mul (.ofNat 7) v).toOption.map Money.val) =
        some (7 * v.val) := by decide +kernel
    have htotal : total Sample.quarterAndHalf = 3 / 4 := by decide +kernel
    have hspec := (largest_remainder Sample.decimal (.ofNat 7) ⟨Sample.quarterAndHalf, by decide⟩ 7 hseven
      (by decide)).2 (by decide) (by decide +kernel) (by rw [htotal]; norm_num) (by
        intro v p hv hp
        have hmem : v ∈ Sample.quarterAndHalf := by
          rcases hv with hv | hv
          · exact hv
          · have hquarter : v = ⟨25, 2, by decide, by decide, by decide⟩ := by
              apply Money.val_injective
              rw [hv, htotal]
              norm_num [Money.val]
            rw [hquarter]
            exact List.mem_cons_self
        have hone := hproducts v hmem
        rw [hp] at hone
        rw [hseven]
        simpa [Except.toOption] using hone) _ (toOption_eq_some.1 hparts)
    refine ⟨hparts, ?_⟩
    rw [hseven] at hspec
    exact_mod_cast hspec.1

/-- The sum of two weights of `7·10²⁸` is held by no `Money`, so nothing is allocated. Of `6·10²⁸` shares the sum of the
whole parts is rounded, and every part is topped up: the products are exact, the fractions are one, and ten shares too
many are handed out. -/
theorem weights_refused_and_shares_overrun :
    (allocate (.code Sample.decimal) (.ofNat 1) [.ofNat (7 * 10 ^ 28), .ofNat (7 * 10 ^ 28)] true).toOption = none ∧
    total Sample.tenths = 1 ∧
    Sample.tenths.all (fun v => ((Money.mul (.ofNat (6 * 10 ^ 28)) v).toOption.map Money.val) =
      some (6 * 10 ^ 28 * v.val)) = true ∧
    (fractions (.code Sample.decimal) (.ofNat (6 * 10 ^ 28)) Sample.tenths true).toOption.map total =
      some (6 * 10 ^ 28 + 10) := by
  decide +kernel

end TradeEngine.Oms
