import TradeEngine.Ledger.Lemmas.Exact
import TradeEngine.Ledger.Lemmas.Sized
import TradeEngine.Ledger.Theorems

/-!
# Pro-rata shares of an amount

The shares of an amount by whole weights are all computed and add up to it. A quotient that was rounded up to the next
integer can put its share a rounding above the exact quotient and one; below `10¹³` no quotient is.
-/

namespace TradeEngine

open Lib

variable {D : RustDecimal}

/-- Each share is left as it is or gets one more. -/
theorem bumpShares_near {ws ss ps : List Money} {r : ℤ} (hlen : ws.length = ss.length)
    (h : bumpShares (Unrounded D) (ws.zip ss) r = .ok ps) :
    List.Forall₂ (fun s p : Money => p.val = s.val ∨ p.val = s.val + 1) ss ps := by
  have hself : ∀ l : List Money, List.Forall₂ (fun s p : Money => p.val = s.val ∨ p.val = s.val + 1) l l :=
    fun l => List.forall₂_same.2 fun s _ => .inl rfl
  induction ws generalizing ss ps r with
  | nil =>
    cases ss with
    | nil =>
      cases h
      exact .nil
    | cons s ss => cases hlen
  | cons w ws ih =>
    cases ss with
    | nil => cases hlen
    | cons s ss =>
      have hrest : ws.length = ss.length := Nat.succ.inj hlen
      rw [List.zip_cons_cons, bumpShares] at h
      split_ifs at h with hz hlt
      · cases h
        rw [List.map_snd_zip hrest.ge]
        exact hself _
      · simp only [bind_eq_ok, pure_eq_ok] at h
        obtain ⟨s', hs', qs, hqs, rfl⟩ := h
        exact .cons (.inr (addI_one hs')) (ih hrest hqs)
      · simp only [bind_eq_ok, pure_eq_ok] at h
        obtain ⟨qs, hqs, rfl⟩ := h
        exact .cons (.inl rfl) (ih hrest hqs)

/-- How far a share may stand from the exact quotient `q`. -/
structure Near (q p : ℚ) : Prop where
  floor : q - 1 < p
  lift : p ≤ q + 1 + (1 / 10 ^ 27 + q / 10 ^ 26)

theorem Share.near {w q s p : ℚ} (h : Share w q s) (hp : p = s ∨ p = s + 1) : Near q p := by
  have hfloor := h.floor
  have hlift := h.lift
  rcases hp with rfl | rfl
  · exact ⟨by linarith, by linarith⟩
  · exact ⟨by linarith, by linarith⟩

theorem forall₂_both {α β : Type} {R S : α → β → Prop} {l : List α} {m : List β} (h : List.Forall₂ R l m)
    (h' : List.Forall₂ S l m) : List.Forall₂ (fun a b => R a b ∧ S a b) l m := by
  induction h with
  | nil => exact .nil
  | cons hab _ ih =>
    cases h' with
    | cons hab' hrest => exact .cons ⟨hab, hab'⟩ (ih hrest)

/-- Each share against its exact quotient. -/
theorem proRata_near {weights pieces : List Money} {whole amount : Money}
    (hws : ∀ w ∈ weights, (∃ n : ℤ, w.val = n) ∧ 0 ≤ w.val) (hwhole : whole.val = total weights)
    (ha0 : 0 < amount.val) (hale : amount.val ≤ whole.val)
    (h : proRata (Unrounded D) weights whole amount = .ok pieces) :
    List.Forall₂ (fun w p : Money => ∃ s : Money, Share w.val (w.val * amount.val / whole.val) s.val ∧
      (p.val = s.val ∨ p.val = s.val + 1)) weights pieces := by
  simp only [proRata, bind_eq_ok] at h
  obtain ⟨shares, hshares, sum, -, diff, -, r, -, h⟩ := h
  have hshare : List.Forall₂ (fun w s : Money => Share w.val (w.val * amount.val / whole.val) s.val)
      weights shares := by
    refine ((List.forall₂_and_left _ _).mpr ⟨fun w hw => hw, mapM_ok hshares⟩).imp fun w s hs => ?_
    obtain ⟨hw, hs⟩ := hs
    simp only [bind_eq_ok, except_mapError_eq_ok] at hs
    obtain ⟨p, hp, x, hx, hs⟩ := hs
    have hle : w.val ≤ whole.val := hwhole ▸ val_le_total (fun m hm => (hws m hm).2) hw
    exact (share_of_quotient (hws w hw).1 (hws w hw).2 hle ha0 hale hp hx hs).1
  exact forall₂_trans hshare (bumpShares_near hshare.length_eq h)

/-- Below `10¹³` a quotient that is not whole is further from the next integer than its rounding reaches. -/
theorem Share.le_quotient {w a W s : ℚ} (h : Share w (w * a / W) s) (hw : Whole w) (ha : Whole a) (hW : Whole W)
    (hW0 : 0 < W) (haW : a ≤ W) (hw0 : 0 ≤ w) (hwW : w ≤ W) (hlt : W < 10 ^ 13) : s ≤ w * a / W := by
  by_contra hgt
  rw [not_le, div_lt_iff₀ hW0] at hgt
  have hone : w * a + 1 ≤ s * W := (hw.mul ha).add_one_le (Whole.mul h.whole hW) hgt
  have hlift := h.lift
  have hq : w * a / W ≤ w := by
    rw [div_le_iff₀ hW0]
    exact mul_le_mul_of_nonneg_left haW hw0
  have hround : 1 / 10 ^ 27 + w * a / W / 10 ^ 26 ≤ 1 / 10 ^ 27 + W / 10 ^ 26 := by linarith
  have hmul : s * W ≤ w * a + (1 / 10 ^ 27 + W / 10 ^ 26) * W := by
    have hs : s ≤ w * a / W + (1 / 10 ^ 27 + W / 10 ^ 26) := by linarith
    calc s * W ≤ (w * a / W + (1 / 10 ^ 27 + W / 10 ^ 26)) * W := mul_le_mul_of_nonneg_right hs hW0.le
      _ = w * a + (1 / 10 ^ 27 + W / 10 ^ 26) * W := by rw [add_mul, div_mul_cancel₀ _ hW0.ne']
  have hstep : W + 1 ≤ 10 ^ 13 := hW.add_one_le ⟨10 ^ 13, by norm_num⟩ hlt
  have hsquare : (1 / 10 ^ 27 + W / 10 ^ 26) * W < 1 := by nlinarith
  linarith

/-- A slice: its length is a machine word. -/
abbrev Slice (α : Type) := {l : List α // l.length < vecLimit}

/-- The shares of a whole amount by whole weights, products and whole below `10²⁸`: one for each weight, none above its
weight, together the amount, each within one of its exact quotient but for the rounding of that quotient. -/
theorem pro_rata_shares (D : RustDecimal) (weights : Slice Money) (whole amount : Money)
    (hws : ∀ w ∈ weights.1, (∃ n : ℤ, w.val = n) ∧ 0 ≤ w.val) (hwhole : whole.val = total weights.1)
    (ha : ∃ n : ℤ, amount.val = n) (ha0 : 0 < amount.val) (hale : amount.val ≤ whole.val)
    (hproducts : ∀ w ∈ weights.1, w.val * amount.val < 10 ^ 28) (hlt : whole.val < 10 ^ 28) :
    ∃ shares, proRata (.code D) weights.1 whole amount = .ok shares ∧
      shares.length = weights.1.length ∧ total shares = amount.val ∧
      List.Forall₂ (fun w s : Money => (∃ n : ℤ, s.val = n) ∧ 0 ≤ s.val ∧ s.val ≤ w.val ∧
        Near (amount.val * w.val / whole.val) s.val ∧
        (whole.val < 10 ^ 13 → |s.val - amount.val * w.val / whole.val| ≤ 1)) weights.1 shares := by
  obtain ⟨shares, hshares⟩ := proRata_ok (D := D) hws hlt hwhole ha ha0 hale hproducts
  obtain ⟨htotal, hpieces⟩ := proRata_spec hws weights.2 hwhole ha ha0 hale hshares
  have hnear := proRata_near hws hwhole ha0 hale hshares
  have hW : Whole whole.val := hwhole ▸ Whole.total fun w hw => (hws w hw).1
  refine ⟨shares, proRata_refuses (Arith.exactButDiv_le _) weights.1 whole amount shares hshares,
    hpieces.length_eq.symm, htotal, ?_⟩
  refine ((List.forall₂_and_left _ _).2 ⟨fun w hw => hw, forall₂_both hpieces hnear⟩).imp ?_
  rintro w p ⟨hw, hpiece, s, hshare, hp⟩
  have hle : w.val ≤ whole.val := hwhole ▸ val_le_total (fun m hm => (hws m hm).2) hw
  rw [mul_comm amount.val]
  refine ⟨hpiece.whole, hpiece.nonneg, hpiece.le_weight, hshare.near hp, fun hsmall => ?_⟩
  have hquot := hshare.le_quotient (hws w hw).1 ha hW (ha0.trans_le hale) hale (hws w hw).2 hle hsmall
  have hfloor := (hshare.near hp).floor
  rw [abs_le]
  constructor
  · linarith
  · rcases hp with hp | hp <;> linarith

theorem Money.ofNat_val {n : ℕ} (hn : n < mantissaLimit) : (Money.ofNat n).val = n := by
  rw [Money.ofNat, dif_pos hn]
  simp [Money.val]

/-- `7` over the weights `3`, `3` and `4`. -/
theorem pro_rata_shares_of_seven :
    (proRata (.code Sample.decimal) [.ofNat 3, .ofNat 3, .ofNat 4] (.ofNat 10) (.ofNat 7)).toOption =
      some [.ofNat 3, .ofNat 2, .ofNat 2] ∧
    ∃ shares, proRata (.code Sample.decimal) [.ofNat 3, .ofNat 3, .ofNat 4] (.ofNat 10) (.ofNat 7) = .ok shares ∧
      shares.length = 3 ∧ total shares = (Money.ofNat 7).val := by
  have hval : ∀ n < 11, (Money.ofNat n).val = n := fun n hn => Money.ofNat_val (by simp only [mantissaLimit]; omega)
  have hmem : ∀ w ∈ [Money.ofNat 3, .ofNat 3, .ofNat 4], ∃ n < 5, w = Money.ofNat n := by decide
  obtain ⟨shares, hshares, hlen, htotal, -⟩ := pro_rata_shares Sample.decimal
    ⟨[.ofNat 3, .ofNat 3, .ofNat 4], by decide⟩ (.ofNat 10) (.ofNat 7)
    (by
      intro w hw
      obtain ⟨n, hn, rfl⟩ := hmem w hw
      rw [hval n (by omega)]
      exact ⟨⟨n, rfl⟩, n.cast_nonneg⟩)
    (by simp [total, hval]; norm_num)
    ⟨7, by rw [hval 7 (by omega)]; rfl⟩ (by rw [hval 7 (by omega)]; norm_num)
    (by rw [hval 7 (by omega), hval 10 (by omega)]; norm_num)
    (by
      intro w hw
      obtain ⟨n, hn, rfl⟩ := hmem w hw
      rw [hval n (by omega), hval 7 (by omega)]
      have : (n : ℚ) < 5 := by exact_mod_cast hn
      norm_num
      linarith)
    (by rw [hval 10 (by omega)]; norm_num)
  exact ⟨by decide +kernel, shares, hshares, hlen, htotal⟩

/-- Six weights of `9·10²⁷` and a weight of one: every product is exact, and the quotient of the last weight is too small
to be held, so nothing is split. With a whole of 28 digits the first of three shares of `3` is lifted to `2`, then gets
the one left over, and stands more than one above its exact quotient. -/
theorem pro_rata_rounded_quotients :
    (proRata (.code Sample.decimal) (List.replicate 6 (.ofNat (9 * 10 ^ 27)) ++ [.ofNat 1])
      (.ofNat (54 * 10 ^ 27 + 1)) (.ofNat 1)).toOption = none ∧
    (proRata (.code Sample.decimal)
      [.ofNat 3266666666666666666666666667, .ofNat (8 * 10 ^ 26), .ofNat 833333333333333333333333334]
      (.ofNat (49 * 10 ^ 26 + 1)) (.ofNat 3)).toOption = some [.ofNat 3, .ofNat 0, .ofNat 0] ∧
    (3266666666666666666666666667 + 8 * 10 ^ 26 + 833333333333333333333333334 : ℚ) = 49 * 10 ^ 26 + 1 ∧
    1 < 3 - (3 * 3266666666666666666666666667 / (49 * 10 ^ 26 + 1) : ℚ) := by
  refine ⟨by decide +kernel, by decide +kernel, by norm_num, by norm_num⟩

end TradeEngine
