import TradeEngine.Ledger.Lemmas.Keys
import TradeEngine.Money.Parse
import TradeEngine.Money.Whole
import TradeEngine.Options.Lemmas.Occ

/-!
# The canonical text is read back

The digits of a text are read as they stand; leading and trailing zeros change nothing, so the value the parser builds
is the one the text spells.
-/

namespace TradeEngine

open Lib

/-! ## Digits -/

theorem isDigit_of_mem_toDigits {n : Nat} {c : Char} (h : c ∈ Nat.toDigits 10 n) : isDigit c = true := by
  obtain ⟨w, hw, hn⟩ : ∃ w, 0 < w ∧ n < 10 ^ w := ⟨n + 1, n.succ_pos, (Nat.lt_pow_self (by norm_num)).trans_le
    (Nat.pow_le_pow_right (by norm_num) n.le_succ)⟩
  refine isDigit_of_mem_fixedDigits (w := w) (n := n) ?_
  rw [← replicate_append_toDigits hw hn]
  exact List.mem_append_right _ h

/-- Digits of value zero in front add nothing. -/
theorem digitsNumber_dropWhile (l : List Char) :
    digitsNumber (l.dropWhile (digitVal · = 0)) = digitsNumber l := by
  induction l with
  | nil => rfl
  | cons c l ih =>
    by_cases hc : digitVal c = 0
    · have hcons : digitsNumber (c :: l) = digitsNumber l := by simp [digitsNumber, hc]
      rw [List.dropWhile_cons_of_pos (by simpa using hc), ih, hcons]
    · rw [List.dropWhile_cons_of_neg (by simpa using hc)]

theorem digitsNumber_zeros {l : List Char} (h : ∀ c ∈ l, digitVal c = 0) : digitsNumber l = 0 := by
  induction l with
  | nil => rfl
  | cons c l ih =>
    have hcons : digitsNumber (c :: l) = digitsNumber l := by simp [digitsNumber, h c (by simp)]
    rw [hcons]
    exact ih fun x hx => h x (by simp [hx])

/-- A number with a first digit that is not zero is as long as its digits. -/
theorem pow_le_digitsNumber {c : Char} {l : List Char} (hc : digitVal c ≠ 0) : 10 ^ l.length ≤ digitsNumber (c :: l) := by
  have hcons : digitsNumber (c :: l) = digitVal c * 10 ^ l.length + digitsNumber l := by
    have := digitsNumber_append [c] l
    simpa [digitsNumber] using this
  rw [hcons]
  have hone : 1 * 10 ^ l.length ≤ digitVal c * 10 ^ l.length := Nat.mul_le_mul_right _ (Nat.pos_of_ne_zero hc)
  omega

namespace Money

/-! ## Significant digits -/

/-- The digits without the zeros at both ends, and how many zeros stood at the end. -/
theorem significant {l : List Char} (hne : l.dropWhile (digitVal · = 0) ≠ []) :
    ∃ c sig k, ((l.dropWhile (digitVal · = 0)).reverse.dropWhile (digitVal · = 0)).reverse = c :: sig ∧ digitVal c ≠ 0 ∧
      (l.dropWhile (digitVal · = 0)).length - (c :: sig).length = k ∧ digitsNumber (c :: sig) * 10 ^ k = digitsNumber l := by
  have hnumber := digitsNumber_dropWhile l
  obtain ⟨c, tail, hds⟩ := List.exists_cons_of_ne_nil hne
  have hc : digitVal c ≠ 0 := by
    have := List.head_dropWhile_not (fun x => decide (digitVal x = 0)) hne
    simpa [hds] using this
  rw [hds] at hnumber ⊢
  -- the zeros at the end, split off
  have hsplit := List.takeWhile_append_dropWhile (p := fun x => decide (digitVal x = 0)) (l := (c :: tail).reverse)
  have hback : c :: tail = ((c :: tail).reverse.dropWhile (digitVal · = 0)).reverse ++
      ((c :: tail).reverse.takeWhile (digitVal · = 0)).reverse := by
    rw [← List.reverse_append, hsplit, List.reverse_reverse]
  have hzeros : ∀ x ∈ ((c :: tail).reverse.takeWhile (digitVal · = 0)).reverse, digitVal x = 0 := by
    intro x hx
    simpa using List.mem_takeWhile_imp (List.mem_reverse.1 hx)
  generalize ((c :: tail).reverse.dropWhile (digitVal · = 0)).reverse = sig at hback ⊢
  generalize ((c :: tail).reverse.takeWhile (digitVal · = 0)).reverse = zeros at hback hzeros
  cases sig with
  | nil =>
    rw [List.nil_append] at hback
    exact absurd (hzeros c (by rw [← hback]; simp)) hc
  | cons d sig =>
    obtain ⟨rfl, htail⟩ := List.cons.inj hback
    refine ⟨c, sig, zeros.length, rfl, hc, by rw [htail]; simp, ?_⟩
    rw [← hnumber, hback, digitsNumber_append, digitsNumber_zeros hzeros, Nat.add_zero]

/-- The digits of an amount at its own exponent are that amount. -/
theorem fromDigits_ok {a : Money} {neg : Bool} {all : List Char} {total : Int} (hlt : digitsNumber all < mantissaLimit)
    (hlow : -28 ≤ total) (hhigh : total ≤ 0)
    (hval : a.val = (if neg then -1 else 1) * (digitsNumber all * 10 ^ total)) : fromDigits neg all total = .ok a := by
  unfold fromDigits
  by_cases hnil : all.dropWhile (digitVal · = 0) = []
  · have hzero : digitsNumber all = 0 := by
      rw [← digitsNumber_dropWhile, hnil]
      rfl
    have ha : a = zero := val_injective (by rw [hval, hzero]; simp)
    rw [if_pos hnil, ha]
  obtain ⟨c, sig, k, hsig, hc, hk, hnumber⟩ := significant hnil
  have hpow : (0 : ℚ) < 10 ^ k := by positivity
  have hlimit : digitsNumber (c :: sig) * 10 ^ k < 2 ^ 96 := by
    rw [hnumber]
    exact hlt
  have hle : digitsNumber (c :: sig) ≤ digitsNumber (c :: sig) * 10 ^ k := Nat.le_mul_of_pos_right _ (by positivity)
  have hlen : sig.length < 29 := by
    by_contra hge
    have hten : 10 ^ 29 ≤ 10 ^ sig.length := Nat.pow_le_pow_right (by norm_num) (not_lt.1 hge)
    have := pow_le_digitsNumber (l := sig) hc
    omega
  have hk29 : k < 29 := by
    by_contra hge
    have hten : 10 ^ 29 ≤ 10 ^ k := Nat.pow_le_pow_right (by norm_num) (not_lt.1 hge)
    have hone : 1 ≤ digitsNumber (c :: sig) := (Nat.one_le_pow _ _ (by norm_num)).trans (pow_le_digitsNumber hc)
    have := Nat.mul_le_mul hone hten
    omega
  have hsame : (digitsNumber (c :: sig) : ℚ) * 10 ^ (total + k) = digitsNumber all * 10 ^ total := by
    rw [← hnumber, zpow_add₀ (by norm_num), zpow_natCast]
    push_cast
    ring
  have hbound : (digitsNumber (c :: sig) : ℚ) * 10 ^ (total + k) < 2 ^ 96 := by
    have hone : (10 : ℚ) ^ total ≤ 1 := zpow_le_one_of_nonpos₀ (by norm_num) hhigh
    have hcast : (digitsNumber all : ℚ) < 2 ^ 96 := by exact_mod_cast hlt
    rw [hsame]
    calc (digitsNumber all : ℚ) * 10 ^ total ≤ digitsNumber all * 1 :=
          mul_le_mul_of_nonneg_left hone (Nat.cast_nonneg _)
      _ < 2 ^ 96 := by linarith
  obtain ⟨r, hr⟩ := build_ok neg (c := digitsNumber (c :: sig)) (by simp only [mantissaLimit]; omega) (e := total + k)
    (by omega) hbound
  have hra : r = a := val_injective (by rw [build_val hr, hval, hsame])
  rw [if_neg hnil]
  dsimp only
  rw [hsig, hk, if_neg, hr, hra]
  simp only [List.length_cons, maxScale]
  omega

/-! ## The canonical text -/

/-- The digits before the point and those after it. -/
theorem body_shape (a : Money) : ∃ whole frac, whole ≠ [] ∧ (∀ c ∈ whole, isDigit c = true) ∧
    (∀ c ∈ frac, isDigit c = true) ∧ a.body = whole ++ (if a.scale = 0 then [] else '.' :: frac) ∧
    frac.length = a.scale ∧ digitsNumber (whole ++ frac) = a.coefficient := by
  have hdigits : ∀ c ∈ Nat.toDigits 10 a.coefficient, isDigit c = true := fun c hc => isDigit_of_mem_toDigits hc
  have hnumber := digitsNumber_toDigits a.coefficient
  have hne : Nat.toDigits 10 a.coefficient ≠ [] := Nat.toDigits_ne_nil
  unfold body
  generalize Nat.toDigits 10 a.coefficient = ds at *
  dsimp only
  by_cases hs : a.scale = 0
  · exact ⟨ds, [], hne, hdigits, by simp, by simp [hs], by simp [hs], by simpa using hnumber⟩
  rw [if_neg hs]
  by_cases hlong : ds.length > a.scale
  · refine ⟨ds.take (ds.length - a.scale), ds.drop (ds.length - a.scale), ?_, ?_, ?_, ?_, ?_, ?_⟩
    · intro hnil
      have := congrArg List.length hnil
      simp only [List.length_take, List.length_nil] at this
      omega
    · exact fun c hc => hdigits c (List.mem_of_mem_take hc)
    · exact fun c hc => hdigits c (List.mem_of_mem_drop hc)
    · rw [if_pos hlong, if_neg hs]
    · rw [List.length_drop]
      omega
    · rw [List.take_append_drop, hnumber]
  · refine ⟨['0'], List.replicate (a.scale - ds.length) '0' ++ ds, by simp, ?_, ?_, ?_, ?_, ?_⟩
    · intro c hc
      rw [List.mem_singleton.1 hc]
      decide
    · intro c hc
      rcases List.mem_append.1 hc with hc | hc
      · rw [List.eq_of_mem_replicate hc]
        decide
      · exact hdigits c hc
    · rw [if_neg hlong, if_neg hs]
      simp
    · rw [List.length_append, List.length_replicate]
      omega
    · have hzeros : ∀ k, digitsNumber (List.replicate k '0') = 0 := by
        intro k
        rw [← fixedDigits_zero, digitsNumber_fixedDigits, Nat.zero_mod]
      have hshape : ['0'] ++ (List.replicate (a.scale - ds.length) '0' ++ ds) =
          List.replicate (1 + (a.scale - ds.length)) '0' ++ ds := by rw [List.replicate_add]; simp
      rw [hshape, digitsNumber_append, hzeros, zero_mul, zero_add, hnumber]

/-- Digits are read up to the first character that is none. -/
theorem takeWhile_digits {l r : List Char} (hl : ∀ c ∈ l, isDigit c = true) (hr : ∀ c ∈ r.head?, isDigit c = false) :
    (l ++ r).takeWhile isDigit = l ∧ (l ++ r).dropWhile isDigit = r := by
  cases r with
  | nil =>
    rw [List.append_nil]
    exact ⟨List.takeWhile_eq_self_iff.2 hl, List.dropWhile_eq_nil_iff.2 hl⟩
  | cons c r =>
    have hc : ¬ isDigit c = true := by simp [hr c rfl]
    rw [List.takeWhile_append_of_pos hl, List.dropWhile_append_of_pos hl, List.takeWhile_cons_of_neg hc,
      List.dropWhile_cons_of_neg hc, List.append_nil]
    exact ⟨rfl, rfl⟩

/-- No decimal digit of any script is a blank. -/
theorem isSpace_of_isDigit {c : Char} (h : isDigit c = true) : isSpace c = false := by
  have hall : ∀ start ∈ ndStarts, ∀ v < 10, isSpace (Char.ofNat (start + v)) = false := by decide
  obtain ⟨v, hv⟩ := Option.isSome_iff_exists.1 h
  obtain ⟨start, hstart, hif⟩ := Option.bind_eq_some_iff.1 hv
  obtain ⟨hmem, hle⟩ := List.mem_filter.1 (List.mem_of_getLast? hstart)
  split_ifs at hif with hlt
  have hcode : c = Char.ofNat (start + (c.toNat - start)) := by
    rw [Nat.add_sub_cancel' (by simpa using hle), Char.ofNat_toNat]
  rw [hcode]
  exact hall start hmem _ hlt

/-- What a canonical text is made of. -/
def CanonChar (c : Char) : Prop := isDigit c = true ∨ c = '.'

theorem body_chars {a : Money} {c : Char} (h : c ∈ a.body) : CanonChar c := by
  obtain ⟨whole, frac, -, hwhole, hfrac, hbody, -⟩ := a.body_shape
  rw [hbody] at h
  rcases List.mem_append.1 h with h | h
  · exact .inl (hwhole c h)
  · split_ifs at h
    · cases h
    · rcases List.mem_cons.1 h with rfl | h
      · exact .inr rfl
      · exact .inl (hfrac c h)

theorem CanonChar.ne {c d : Char} (h : CanonChar c) (hdigit : isDigit d = false) (hpoint : d ≠ '.') : c ≠ d := by
  rintro rfl
  rcases h with h | h
  · rw [hdigit] at h
    cases h
  · exact hpoint h

theorem CanonChar.notSpace {c : Char} (h : CanonChar c) : isSpace c = false := by
  rcases h with h | rfl
  · exact isSpace_of_isDigit h
  · decide

/-- The text of an amount, its sign apart. -/
theorem cleaned_canon (a : Money) : (TradeEngine.strip a.canon).toList.filter (· != '_') =
    if a.isNegative then '-' :: a.body else a.body := by
  have hchars : ∀ c ∈ (if a.isNegative then '-' :: a.body else a.body), c = '-' ∨ CanonChar c := by
    intro c hc
    split_ifs at hc
    · rcases List.mem_cons.1 hc with rfl | hc
      · exact .inl rfl
      · exact .inr (body_chars hc)
    · exact .inr (body_chars hc)
  have hspace : ∀ c ∈ (if a.isNegative then '-' :: a.body else a.body), isSpace c = false := by
    intro c hc
    rcases hchars c hc with rfl | h
    · decide
    · exact h.notSpace
  have hcanon : a.canon = String.ofList (if a.isNegative then '-' :: a.body else a.body) := by
    rw [← canon_toList, String.ofList_toList]
  rw [hcanon, strip_toList (fun c hc => hspace c (List.mem_of_mem_head? hc)) fun c hc => hspace c (List.mem_of_getLast? hc),
    List.filter_eq_self]
  intro c hc
  rw [bne_iff_ne]
  rcases hchars c hc with rfl | h
  · decide
  · exact h.ne (by decide) (by decide)

theorem splitSign_canon (a : Money) : splitSign (if a.isNegative then '-' :: a.body else a.body) = (a.isNegative, a.body) := by
  cases hneg : a.isNegative with
  | true => rfl
  | false =>
    have hne : ∀ d, isDigit d = false → d ≠ '.' → ∀ l, a.body ≠ d :: l := by
      intro d hdigit hpoint l hbody
      exact (body_chars (c := d) (by rw [hbody]; simp)).ne hdigit hpoint rfl
    rw [if_neg (by simp)]
    unfold splitSign
    split
    · rename_i l hbody
      exact absurd hbody (hne '-' (by decide) (by decide) l)
    · rename_i l hbody
      exact absurd hbody (hne '+' (by decide) (by decide) l)
    · rfl

theorem val_eq_coefficient (a : Money) : a.val = (if a.isNegative then -1 else 1) * (a.coefficient * 10 ^ (-(a.scale : ℤ))) := by
  have hcast : ((a.coefficient : ℕ) : ℚ) = |(a.mantissa : ℚ)| := by rw [coefficient, Nat.cast_natAbs, Int.cast_abs]
  rw [val, hcast, zpow_neg, zpow_natCast, ← div_eq_mul_inv]
  by_cases hneg : a.mantissa < 0
  · have hlt : (a.mantissa : ℚ) < 0 := by exact_mod_cast hneg
    rw [isNegative, decide_eq_true hneg, if_pos rfl, abs_of_neg hlt]
    ring
  · have hle : (0 : ℚ) ≤ a.mantissa := by exact_mod_cast not_lt.1 hneg
    rw [isNegative, decide_eq_false hneg, if_neg Bool.false_ne_true, abs_of_nonneg hle, one_mul]

/-- An amount is read back from its canonical text. -/
theorem tryParse_canon (a : Money) : tryParse a.canon = .ok a := by
  obtain ⟨whole, frac, hne, hwhole, hfrac, hbody, hlen, hnumber⟩ := a.body_shape
  have hscale := a.scale_le
  have hpoint : ∀ c ∈ (if a.scale = 0 then [] else '.' :: frac).head?, isDigit c = false := by
    split_ifs
    · simp
    · intro c hc
      obtain rfl : '.' = c := by simpa using hc
      decide
  obtain ⟨htake, hdrop⟩ := takeWhile_digits hwhole hpoint
  obtain ⟨hfracTake, hfracDrop⟩ := takeWhile_digits (r := []) hfrac (by simp)
  rw [List.append_nil] at hfracTake hfracDrop
  have hdigits : fromDigits a.isNegative (whole ++ frac) (0 - (frac.length : ℤ)) = .ok a := by
    refine fromDigits_ok (by rw [hnumber]; exact a.mantissa_lt) ?_ (by omega) ?_
    · rw [hlen]
      simp only [maxScale] at hscale
      omega
    · rw [hnumber, hlen, zero_sub]
      exact a.val_eq_coefficient
  have hsmall : ¬((0 - (frac.length : ℤ)).natAbs > maxLiteralExp ∨ (0 : ℤ).natAbs > maxLiteralExp) := by
    simp only [maxLiteralExp, maxScale] at hscale ⊢
    omega
  have hsplit : splitFraction (if a.scale = 0 then [] else '.' :: frac) = (frac, []) := by
    split_ifs with hs
    · rw [List.length_eq_zero_iff.1 (hlen.trans hs)]
      rfl
    · rw [splitFraction, hfracTake, hfracDrop]
  have hread : literal a.isNegative a.body = .ok a := by
    rw [literal, hbody, htake, hdrop, hsplit]
    dsimp only
    rw [if_neg fun h => hne h.1]
    change (if _ then _ else _ : DecResult Money) = _
    rw [if_neg hsmall, hdigits]
  rw [tryParse, cleaned_canon, splitSign_canon]
  exact hread

end Money

end TradeEngine
