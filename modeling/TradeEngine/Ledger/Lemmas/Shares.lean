import TradeEngine.Ledger.Mirror
import TradeEngine.Money.Rounding

/-!
# Pro-rata shares

The shares of an amount are whole, none above its weight, and add up to the amount. The quotients
behind them are rounded, which can lift a share to the next integer but not past its weight, and the
lifts together stay below one share.
-/

namespace TradeEngine

open Lib

variable {D : RustDecimal}

/-- The arithmetic of a step that rounds no sum, difference or product. -/
abbrev Unrounded (D : RustDecimal) : Arith := (Arith.code D).exactButDiv

/-- A vector's length is a machine word. -/
def vecLimit : Nat := 2 ^ 64

namespace Ops

theorem unrounded_add {a b r : Money} (h : add (Unrounded D) a b = .ok r) :
    r.val = a.val + b.val := by
  rw [add, except_mapError_eq_ok] at h
  exact (keepExact_eq_ok.mp h).2

theorem unrounded_sub {a b r : Money} (h : sub (Unrounded D) a b = .ok r) :
    r.val = a.val - b.val := by
  rw [sub, except_mapError_eq_ok] at h
  exact (keepExact_eq_ok.mp h).2

theorem unrounded_mul {a b r : Money} (h : mul (Unrounded D) a b = .ok r) :
    r.val = a.val * b.val := by
  rw [mul, except_mapError_eq_ok] at h
  exact (keepExact_eq_ok.mp h).2

end Ops

theorem Money.val_lt {a : Money} (h : 0 ≤ a.val) : a.val < 2 ^ 96 := by
  have hm : 0 ≤ a.mantissa := by simpa [isNegative] using isNegative_eq_false h
  have hlt : a.mantissa < 2 ^ 96 := by
    have := a.mantissa_lt
    simp only [mantissaLimit] at this
    omega
  calc a.val ≤ a.mantissa := div_le_self (by exact_mod_cast hm) (one_le_pow₀ (by norm_num))
    _ < 2 ^ 96 := by exact_mod_cast hlt

/-! ## One share -/

/-- A share `s` of the weight `w`, against the exact quotient `q`. -/
structure Share (w q s : ℚ) : Prop where
  whole : ∃ n : ℤ, s = n
  nonneg : 0 ≤ s
  le_weight : s ≤ w
  floor : q < s + 1
  lift : s ≤ q + (1 / 10 ^ 27 + q / 10 ^ 26)

theorem share_of_quotient {w amount whole p x s : Money} (hw : ∃ n : ℤ, w.val = n) (hw0 : 0 ≤ w.val)
    (hwle : w.val ≤ whole.val) (ha0 : 0 < amount.val) (hale : amount.val ≤ whole.val)
    (hp : Ops.mul (Unrounded D) w amount = .ok p) (hx : Ops.div (Unrounded D) p whole = .ok x)
    (hs : x.toIntegral .floor = .ok s) :
    Share w.val (w.val * amount.val / whole.val) s.val ∧ w.val * amount.val < 2 ^ 96 := by
  have hW : 0 < whole.val := ha0.trans_le hale
  rw [Ops.div, except_mapError_eq_ok] at hx
  have hpval := Ops.unrounded_mul hp
  have hp0 : 0 ≤ p.val := by rw [hpval]; positivity
  have hplt := Money.val_lt hp0
  have hround : Rounded (p.val / whole.val) x.val := Money.div_rounded hp0 hW hx
  rw [hpval] at hround hplt
  generalize hq : w.val * amount.val / whole.val = q at *
  have hq0 : 0 ≤ q := by rw [← hq]; positivity
  have hqw : q ≤ w.val := by
    rw [← hq, div_le_iff₀ hW]
    exact mul_le_mul_of_nonneg_left hale hw0
  have hqa : q ≤ amount.val := by
    rw [← hq, div_le_iff₀ hW, mul_comm]
    exact mul_le_mul_of_nonneg_left hwle ha0.le
  -- the product bounds the square of the quotient
  have hsmall : q ≤ 10 ^ 26 := by
    by_contra hlt
    have hmul : q * q ≤ w.val * amount.val := mul_le_mul hqw hqa hq0 hw0
    nlinarith [not_le.mp hlt]
  have hx0 : (0 : ℚ) ≤ x.val := by exact_mod_cast hround.int_le hsmall (n := 0) (by exact_mod_cast hq0)
  have hsval := Money.toIntegral_floor hx0 hs
  have hfloor : (⌊q⌋ : ℚ) ≤ ⌊x.val⌋ := by
    exact_mod_cast Int.le_floor.mpr (hround.int_le hsmall (Int.floor_le q))
  obtain ⟨n, hn⟩ := hw
  refine ⟨⟨⟨_, hsval⟩, ?_, ?_, ?_, ?_⟩, hplt⟩
  · rw [hsval]
    exact_mod_cast Int.floor_nonneg.mpr hx0
  · rw [hsval, hn]
    exact (Int.floor_le _).trans (hround.le_int hsmall (hn ▸ hqw))
  · rw [hsval]
    exact (Int.lt_floor_add_one q).trans_le (by linarith)
  · rw [hsval]
    exact (Int.floor_le _).trans (hround.le_add hsmall)

/-! ## All shares -/

section Sums

variable {W a : ℚ} {ws ss : List Money}

def total (l : List Money) : ℚ := (l.map Money.val).sum

@[simp] theorem total_nil : total [] = 0 := rfl

@[simp] theorem total_cons (m : Money) (l : List Money) : total (m :: l) = m.val + total l := rfl

theorem val_le_total (h : ∀ w ∈ ws, 0 ≤ w.val) {w : Money} (hw : w ∈ ws) : w.val ≤ total ws := by
  refine List.single_le_sum (fun x hx => ?_) _ (List.mem_map_of_mem hw)
  obtain ⟨m, hm, rfl⟩ := List.mem_map.mp hx
  exact h m hm

theorem total_lift (h : List.Forall₂ (fun w s : Money => Share w.val (w.val * a / W) s.val) ws ss) :
    total ss ≤ total ws * a / W + (ws.length / 10 ^ 27 + total ws * a / W / 10 ^ 26) := by
  induction h with
  | nil => simp
  | cons hs _ ih =>
      have := hs.lift
      simp only [total_cons, List.length_cons]
      push_cast
      rw [add_mul, add_div, add_div]
      linarith

/-- Shares below their weight. -/
def below (ws ss : List Money) : Nat := (ws.zip ss).countP fun e => e.2.lt e.1

theorem total_floor (h : List.Forall₂ (fun w s : Money => Share w.val (w.val * a / W) s.val) ws ss)
    (hle : ∀ w ∈ ws, w.val * a / W ≤ w.val) : total ws * a / W - total ss ≤ below ws ss := by
  induction h with
  | nil => simp [below]
  | @cons w s ws ss hs _ ih =>
      have hrest := ih fun w hw => hle w (List.mem_cons_of_mem _ hw)
      have hfirst : w.val * a / W - s.val ≤ if s.lt w = true then 1 else 0 := by
        split
        · have := hs.floor
          linarith
        · rename_i hlt
          rw [Money.lt_iff, not_lt] at hlt
          have := hle w List.mem_cons_self
          linarith
      simp only [below, total_cons, List.zip_cons_cons, List.countP_cons] at hrest ⊢
      push_cast
      rw [add_mul, add_div]
      linarith

theorem total_mul_le (h : ∀ w ∈ ws, w.val * a ≤ 2 ^ 96) : total ws * a ≤ ws.length * 2 ^ 96 := by
  induction ws with
  | nil => simp
  | cons w ws ih =>
      have hw := h w List.mem_cons_self
      have hrest := ih fun w hw => h w (List.mem_cons_of_mem _ hw)
      simp only [total_cons, List.length_cons]
      push_cast
      rw [add_mul, add_mul]
      linarith

end Sums

/-! ## The remainder -/

/-- A whole amount, not above a weight. -/
structure Piece (w p : Money) : Prop where
  whole : ∃ n : ℤ, p.val = n
  nonneg : 0 ≤ p.val
  le_weight : p.val ≤ w.val

theorem addI_one {s s' : Money} (h : ((Unrounded D).addI s 1).mapError derr = .ok s') :
    s'.val = s.val + 1 := by
  rw [except_mapError_eq_ok] at h
  obtain ⟨one, hone, h⟩ := bind_eq_ok.mp h
  rw [(keepExact_eq_ok.mp h).2, Money.fromI128_val hone]
  norm_num

/-- A whole amount below a whole weight has room for one more. -/
theorem Piece.succ {w s s' : Money} (hw : ∃ n : ℤ, w.val = n) (h : Piece w s) (hlt : s.val < w.val)
    (hs' : s'.val = s.val + 1) : Piece w s' := by
  obtain ⟨n, hn⟩ := hw
  obtain ⟨k, hk⟩ := h.whole
  refine ⟨⟨k + 1, by rw [hs', hk]; push_cast; rfl⟩, by rw [hs']; linarith [h.nonneg], ?_⟩
  rw [hn, hk] at hlt
  rw [hs', hn, hk]
  exact_mod_cast hlt

/-- A remainder that finds enough shares below their weight is handed out whole. -/
theorem bumpShares_spec {ws ss ps : List Money} {r : ℤ} (hws : ∀ w ∈ ws, ∃ n : ℤ, w.val = n)
    (h : List.Forall₂ Piece ws ss) (hr0 : 0 ≤ r) (hr : r ≤ below ws ss)
    (hps : bumpShares (Unrounded D) (ws.zip ss) r = .ok ps) :
    total ps = total ss + r ∧ List.Forall₂ Piece ws ps := by
  induction h generalizing r ps with
  | nil =>
      cases hps
      have hz : r = 0 := by simp only [below, List.zip_nil_left, List.countP_nil] at hr; omega
      simp [hz]
  | @cons w s ws ss hs hrest ih =>
      have hws' := fun w hw => hws w (List.mem_cons_of_mem _ hw)
      have hbelow : below (w :: ws) (s :: ss) = below ws ss + if s.lt w then 1 else 0 := by
        simp [below, List.countP_cons]
      rw [List.zip_cons_cons, bumpShares] at hps
      split at hps
      · rename_i hz
        cases hps
        rw [hz, List.map_snd_zip (by rw [hrest.length_eq])]
        exact ⟨by simp, .cons hs hrest⟩
      · rename_i hne
        split at hps
        · rename_i hlt
          simp only [bind_eq_ok, pure_eq_ok] at hps
          obtain ⟨s', hs', qs, hqs, rfl⟩ := hps
          rw [hlt, if_pos rfl] at hbelow
          obtain ⟨htotal, hpieces⟩ := ih hws' (by omega) (by omega) hqs
          have hval := addI_one hs'
          refine ⟨?_, .cons (hs.succ (hws w List.mem_cons_self) (Money.lt_iff.mp hlt) hval) hpieces⟩
          simp only [total_cons, htotal, hval]
          push_cast
          ring
        · rename_i hlt
          simp only [bind_eq_ok, pure_eq_ok] at hps
          obtain ⟨qs, hqs, rfl⟩ := hps
          rw [if_neg hlt] at hbelow
          obtain ⟨htotal, hpieces⟩ := ih hws' hr0 (by omega) hqs
          refine ⟨?_, .cons hs hpieces⟩
          simp only [total_cons, htotal]
          ring

theorem sum_whole {l : List ℚ} (h : ∀ x ∈ l, ∃ n : ℤ, x = n) : ∃ n : ℤ, l.sum = n := by
  induction l with
  | nil => exact ⟨0, by simp⟩
  | cons x l ih =>
      obtain ⟨n, hn⟩ := h x List.mem_cons_self
      obtain ⟨k, hk⟩ := ih fun x hx => h x (List.mem_cons_of_mem _ hx)
      exact ⟨n + k, by rw [List.sum_cons, hn, hk]; push_cast; rfl⟩

theorem unrounded_total {l : List Money} {s r : Money}
    (h : l.foldlM (Ops.add (Unrounded D)) s = .ok r) : r.val = s.val + total l := by
  induction l generalizing s with
  | nil =>
      cases h
      simp
  | cons m l ih =>
      simp only [List.foldlM_cons, bind_eq_ok] at h
      obtain ⟨t, ht, h⟩ := h
      rw [ih h, Ops.unrounded_add ht, total_cons]
      ring

/-- The shares of an amount by whole weights that add up to the whole. -/
theorem proRata_spec {weights pieces : List Money} {whole amount : Money}
    (hws : ∀ w ∈ weights, (∃ n : ℤ, w.val = n) ∧ 0 ≤ w.val) (hlen : weights.length < vecLimit)
    (hwhole : whole.val = total weights) (ha : ∃ n : ℤ, amount.val = n) (ha0 : 0 < amount.val)
    (hale : amount.val ≤ whole.val)
    (h : proRata (Unrounded D) weights whole amount = .ok pieces) :
    total pieces = amount.val ∧ List.Forall₂ Piece weights pieces := by
  have hW : 0 < whole.val := ha0.trans_le hale
  simp only [proRata, bind_eq_ok] at h
  obtain ⟨shares, hshares, sum, hsum, diff, hdiff, r, hr, h⟩ := h
  rw [except_mapError_eq_ok] at hr
  have hle : ∀ w ∈ weights, w.val ≤ whole.val := by
    intro w hw
    rw [hwhole]
    exact val_le_total (fun m hm => (hws m hm).2) hw
  have heach : List.Forall₂ (fun w s : Money => w ∈ weights ∧
      Share w.val (w.val * amount.val / whole.val) s.val ∧ w.val * amount.val < 2 ^ 96) weights shares := by
    refine ((List.forall₂_and_left _ _).mpr ⟨fun w hw => hw, mapM_ok hshares⟩).imp fun w s hs => ⟨hs.1, ?_⟩
    obtain ⟨hw, hs⟩ := hs
    simp only [bind_eq_ok, except_mapError_eq_ok] at hs
    obtain ⟨p, hp, x, hx, hs⟩ := hs
    exact share_of_quotient (hws w hw).1 (hws w hw).2 (hle w hw) ha0 hale hp hx hs
  have hshare := heach.imp fun w s hs => hs.2.1
  have hq : total weights * amount.val / whole.val = amount.val := by
    rw [← hwhole]
    field_simp
  have hsumval : sum.val = total shares := by rw [unrounded_total hsum, Money.val_zero, zero_add]
  obtain ⟨n, hn⟩ := ha
  obtain ⟨k, hk⟩ : ∃ k : ℤ, total shares = k := by
    refine sum_whole fun x hx => ?_
    obtain ⟨m, hm, rfl⟩ := List.mem_map.mp hx
    obtain ⟨w, -, hs⟩ := forall₂_right hshare m hm
    exact hs.whole
  -- all lifts together stay below one share
  have hkn : k ≤ n := by
    have hlift := total_lift hshare
    have hsq : total weights * amount.val ≤ weights.length * 2 ^ 96 :=
      total_mul_le fun w hw => by
        obtain ⟨s, -, hs⟩ := forall₂_left heach w hw
        exact hs.2.2.le
    have hlen' : (weights.length : ℚ) ≤ 2 ^ 64 := by exact_mod_cast hlen.le
    have hamount : amount.val ≤ 10 ^ 25 := by
      by_contra hlt
      rw [← hwhole] at hsq
      nlinarith [not_le.mp hlt]
    rw [hq, hk, hn] at hlift
    rw [hn] at hamount
    have hlt : (k : ℚ) < n + 1 := by linarith
    exact_mod_cast Int.lt_add_one_iff.mp (by exact_mod_cast hlt)
  have hrval : r = n - k := by
    refine Money.truncI128_whole ?_ hr
    rw [Ops.unrounded_sub hdiff, hsumval, hk, hn]
    push_cast
    rfl
  have hbelow : r ≤ below weights shares := by
    have hfloor := total_floor hshare fun w hw => by
      rw [div_le_iff₀ hW]
      exact mul_le_mul_of_nonneg_left hale (hws w hw).2
    rw [hq, hk, hn] at hfloor
    rw [hrval]
    exact_mod_cast hfloor
  obtain ⟨htotal, hpieces⟩ := bumpShares_spec (fun w hw => (hws w hw).1)
    (hshare.imp fun w s hs => ⟨hs.whole, hs.nonneg, hs.le_weight⟩) (by omega) hbelow h
  refine ⟨?_, hpieces⟩
  rw [htotal, hk, hrval, hn]
  push_cast
  ring

end TradeEngine
