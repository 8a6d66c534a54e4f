import TradeEngine.Lib.Text
import TradeEngine.Money.Arith
import TradeEngine.Ledger.Model

/-!
# What the key of an instrument tells

The canonical text of an amount and the key of a contract are one-to-one: what two contracts share a
key for is the same contract.
-/

namespace TradeEngine

open Lib

/-! ## Dates -/

theorem ofDigitChars_zeros (k : Nat) (l : List Char) :
    Nat.ofDigitChars 10 (List.replicate k '0' ++ l) 0 = Nat.ofDigitChars 10 l 0 := by
  rw [Nat.ofDigitChars_append, Nat.ofDigitChars_replicate_zero, Nat.mul_zero]

theorem padZeros_nat_toList (w n : Nat) : (padZeros w (toString n)).toList =
    List.replicate (w - (toString n).length) '0' ++ Nat.toDigits 10 n := by
  have htext : (toString n).toList = Nat.toDigits 10 n := toString_natCast_toList n
  have hunsigned : (toString n).toList.head? ≠ some '-' := by
    intro h
    rw [htext] at h
    exact notMem_toDigits (by decide) n (List.mem_of_mem_head? h)
  rw [padZeros_toList_of_unsigned hunsigned, htext]

theorem ofDigitChars_padZeros (w n : Nat) :
    Nat.ofDigitChars 10 (padZeros w (toString n)).toList 0 = n := by
  rw [padZeros_nat_toList, ofDigitChars_zeros]
  simp

theorem notMem_padZeros {c : Char} (hc : c.isDigit = false) (w n : Nat) :
    c ∉ (padZeros w (toString n)).toList := by
  rw [padZeros_nat_toList, List.mem_append, not_or]
  refine ⟨fun hmem => ?_, notMem_toDigits hc n⟩
  rw [List.eq_of_mem_replicate hmem] at hc
  exact absurd hc (by decide)

/-- Two texts that end in a separator and a part without it agree in both. -/
theorem append_cons_inj_right {a b x y : List Char} {sep : Char} (hx : sep ∉ x) (hy : sep ∉ y)
    (h : a ++ sep :: x = b ++ sep :: y) : a = b ∧ x = y := by
  have hr : x.reverse ++ sep :: a.reverse = y.reverse ++ sep :: b.reverse := by
    simpa using congrArg List.reverse h
  obtain ⟨hxy, hab⟩ := append_cons_inj (by simpa using hx) (by simpa using hy) hr
  exact ⟨List.reverse_injective hab, List.reverse_injective hxy⟩

theorem toString_negSucc_toList (n : Nat) :
    (toString (Int.negSucc n)).toList = '-' :: Nat.toDigits 10 (n + 1) := by
  have h : toString (Int.negSucc n) = "-" ++ Nat.repr (n + 1) := rfl
  rw [h, String.toList_append, Nat.toList_repr]
  rfl

theorem padZeros_negSucc_toList (w n : Nat) : (padZeros w (toString (Int.negSucc n))).toList =
    '-' :: (List.replicate (w - (toString (Int.negSucc n)).length) '0' ++ Nat.toDigits 10 (n + 1)) := by
  rw [padZeros, toString_negSucc_toList, if_pos (by simp), String.toList_ofList, List.tail_cons]

theorem padZeros_int_inj {w : Nat} {a b : Int}
    (h : padZeros w (toString a) = padZeros w (toString b)) : a = b := by
  have hdash : ∀ n : Nat, '-' ∉ (padZeros w (toString (Int.ofNat n))).toList :=
    fun n => notMem_padZeros (by decide) w n
  have hl := congrArg String.toList h
  cases a with
  | ofNat m =>
      cases b with
      | ofNat n =>
          have hm := ofDigitChars_padZeros w m
          have hn := ofDigitChars_padZeros w n
          change Nat.ofDigitChars 10 (padZeros w (toString (Int.ofNat m))).toList 0 = m at hm
          rw [h] at hm
          exact congrArg Int.ofNat (hm.symm.trans hn)
      | negSucc n =>
          rw [padZeros_negSucc_toList] at hl
          exact absurd (by rw [hl]; simp) (hdash m)
  | negSucc m =>
      cases b with
      | ofNat n =>
          rw [padZeros_negSucc_toList] at hl
          exact absurd (by rw [← hl]; simp) (hdash n)
      | negSucc n =>
          rw [padZeros_negSucc_toList, padZeros_negSucc_toList] at hl
          have hnum := congrArg (Nat.ofDigitChars 10 · 0) (List.cons.inj hl).2
          simp only [ofDigitChars_zeros, Nat.ofDigitChars_ten_toDigits] at hnum
          rw [Nat.succ_injective hnum]

attribute [ext] NaiveDate

theorem NaiveDate.iso_injective : Function.Injective NaiveDate.iso := by
  intro d e h
  have hlist : ∀ d : NaiveDate, d.iso.toList = ((padZeros 4 (toString d.year)).toList ++
      '-' :: (padZeros 2 (toString d.month)).toList) ++ '-' :: (padZeros 2 (toString d.day)).toList := by
    intro d
    simp [NaiveDate.iso, String.toList_append]
  have hl := congrArg String.toList h
  rw [hlist, hlist] at hl
  obtain ⟨hym, hday⟩ := append_cons_inj_right (notMem_padZeros (by decide) 2 _)
    (notMem_padZeros (by decide) 2 _) hl
  obtain ⟨hyear, hmonth⟩ := append_cons_inj_right (notMem_padZeros (by decide) 2 _)
    (notMem_padZeros (by decide) 2 _) hym
  have hday : d.day = e.day := by
    rw [← ofDigitChars_padZeros 2 d.day, ← ofDigitChars_padZeros 2 e.day, hday]
  have hmonth : d.month = e.month := by
    rw [← ofDigitChars_padZeros 2 d.month, ← ofDigitChars_padZeros 2 e.month, hmonth]
  exact NaiveDate.ext (padZeros_int_inj (String.toList_injective hyear)) hmonth hday

/-! ## Amounts -/

/-- The number an unsigned canonical text spells. -/
def spelled (l : List Char) : ℚ :=
  Nat.ofDigitChars 10 (l.filter (· != '.')) 0 / 10 ^ ((l.dropWhile (· != '.')).length - 1)

theorem filter_point {l : List Char} (h : '.' ∉ l) : l.filter (· != '.') = l := by
  rw [List.filter_eq_self]
  intro c hc
  rw [bne_iff_ne]
  rintro rfl
  exact h hc

theorem spelled_point {whole part : List Char} (hw : '.' ∉ whole) (hp : '.' ∉ part) :
    spelled (whole ++ '.' :: part) = Nat.ofDigitChars 10 (whole ++ part) 0 / 10 ^ part.length := by
  have hall : ∀ c ∈ whole, (c != '.') = true := fun c hc => by
    rw [bne_iff_ne]
    rintro rfl
    exact hw hc
  rw [spelled, List.dropWhile_append_of_pos hall, List.filter_append, filter_point hw]
  simp [filter_point hp]

theorem spelled_whole {l : List Char} (h : '.' ∉ l) : spelled l = Nat.ofDigitChars 10 l 0 := by
  have hall : ∀ c ∈ l, (c != '.') = true := fun c hc => by
    rw [bne_iff_ne]
    rintro rfl
    exact h hc
  have hdrop : (l ++ []).dropWhile (· != '.') = [] := List.dropWhile_append_of_pos hall
  rw [List.append_nil] at hdrop
  rw [spelled, filter_point h, hdrop]
  simp

namespace Money

/-- The text of the magnitude. -/
def body (a : Money) : List Char :=
  let ds := Nat.toDigits 10 a.coefficient
  if a.scale = 0 then ds
  else if ds.length > a.scale then
    ds.take (ds.length - a.scale) ++ '.' :: ds.drop (ds.length - a.scale)
  else ['0', '.'] ++ List.replicate (a.scale - ds.length) '0' ++ ds

theorem canon_toList (a : Money) :
    a.canon.toList = if a.isNegative then '-' :: a.body else a.body := by
  unfold canon body
  rw [String.toList_ofList]

theorem spelled_body (a : Money) : spelled a.body = (a.coefficient : ℚ) / 10 ^ a.scale := by
  have hpoint : '.' ∉ Nat.toDigits 10 a.coefficient := notMem_toDigits (by decide) _
  have hvalue : Nat.ofDigitChars 10 (Nat.toDigits 10 a.coefficient) 0 = a.coefficient :=
    Nat.ofDigitChars_ten_toDigits
  unfold body
  dsimp only
  split
  · rename_i hs
    rw [spelled_whole hpoint, hvalue, hs, pow_zero, div_one]
  · split
    · rw [spelled_point (fun h => hpoint (List.mem_of_mem_take h)) fun h => hpoint (List.mem_of_mem_drop h),
        List.take_append_drop, hvalue, List.length_drop]
      congr 2
      omega
    · have hzero : '.' ∉ List.replicate (a.scale - (Nat.toDigits 10 a.coefficient).length) '0' ++
          Nat.toDigits 10 a.coefficient := by
        rw [List.mem_append, not_or]
        exact ⟨fun h => absurd (List.eq_of_mem_replicate h) (by decide), hpoint⟩
      have hshape : ['0', '.'] ++ List.replicate (a.scale - (Nat.toDigits 10 a.coefficient).length) '0' ++
          Nat.toDigits 10 a.coefficient = List.replicate 1 '0' ++ '.' ::
            (List.replicate (a.scale - (Nat.toDigits 10 a.coefficient).length) '0' ++
              Nat.toDigits 10 a.coefficient) := by simp
      rw [hshape, spelled_point (by decide) hzero, ofDigitChars_zeros, ofDigitChars_zeros, hvalue,
        List.length_append, List.length_replicate]
      congr 2
      omega

theorem minus_notMem_body (a : Money) : '-' ∉ a.body := by
  have hd : '-' ∉ Nat.toDigits 10 a.coefficient := notMem_toDigits (by decide) _
  unfold body
  dsimp only
  split
  · exact hd
  · split
    · simp only [List.mem_append, List.mem_cons, not_or]
      exact ⟨fun h => hd (List.mem_of_mem_take h), by decide, fun h => hd (List.mem_of_mem_drop h)⟩
    · simp only [List.mem_append, not_or]
      exact ⟨⟨by decide, fun h => absurd (List.eq_of_mem_replicate h) (by decide)⟩, hd⟩

theorem canon_injective : Function.Injective canon := by
  intro a b h
  have hl := congrArg String.toList h
  rw [canon_toList, canon_toList] at hl
  have hval : ∀ x : Money, x.val = if x.isNegative then -spelled x.body else spelled x.body := by
    intro x
    rw [spelled_body, val, isNegative, coefficient]
    rw [Nat.cast_natAbs, Int.cast_abs]
    by_cases hx : x.mantissa < 0
    · have hneg : (x.mantissa : ℚ) < 0 := by exact_mod_cast hx
      rw [decide_eq_true hx, if_pos rfl, abs_of_neg hneg, neg_div, neg_neg]
    · have hpos : (0 : ℚ) ≤ x.mantissa := by exact_mod_cast not_lt.mp hx
      rw [decide_eq_false hx, if_neg (by decide), abs_of_nonneg hpos]
  apply val_injective
  rw [hval, hval]
  cases ha : a.isNegative <;> cases hb : b.isNegative
  all_goals simp only [ha, hb, if_true, if_false, Bool.false_eq_true] at hl ⊢
  · rw [hl]
  · exact absurd (by rw [hl]; simp) (minus_notMem_body a)
  · exact absurd (by rw [← hl]; simp) (minus_notMem_body b)
  · rw [(List.cons.inj hl).2]

end Money

/-! ## Keys -/

/-- A character that separates fields: no digit, sign or point. -/
structure Separates (sep : Char) : Prop where
  digit : sep.isDigit = false
  minus : sep ≠ '-'
  point : sep ≠ '.'

theorem Separates.notMem_zeros {sep : Char} (h : Separates sep) (k : Nat) : sep ∉ List.replicate k '0' := by
  intro hmem
  have hdigit := h.digit
  rw [List.eq_of_mem_replicate hmem] at hdigit
  exact absurd hdigit (by decide)

theorem separates_one : Separates '\x01' := ⟨by decide, by decide, by decide⟩

theorem separates_two : Separates '\x02' := ⟨by decide, by decide, by decide⟩

/-- No part of an option's key after its root holds the separator. -/
theorem Separates.notMem_iso {sep : Char} (h : Separates sep) (d : NaiveDate) : sep ∉ d.iso.toList := by
  have hyear : sep ∉ (padZeros 4 (toString d.year)).toList := by
    cases hy : d.year with
    | ofNat n => exact notMem_padZeros h.digit 4 n
    | negSucc n =>
        rw [padZeros_negSucc_toList, List.mem_cons, List.mem_append, not_or, not_or]
        exact ⟨h.minus, h.notMem_zeros _, notMem_toDigits h.digit _⟩
  have hdash : sep ∉ "-".toList := by simpa using h.minus
  simp only [NaiveDate.iso, String.toList_append, List.mem_append, not_or]
  exact ⟨⟨⟨⟨hyear, hdash⟩, notMem_padZeros h.digit 2 _⟩, hdash⟩, notMem_padZeros h.digit 2 _⟩

theorem Separates.notMem_canon {sep : Char} (h : Separates sep) (a : Money) : sep ∉ a.canon.toList := by
  have hdigits : sep ∉ Nat.toDigits 10 a.coefficient := notMem_toDigits h.digit _
  have htake : ∀ n, sep ∉ (Nat.toDigits 10 a.coefficient).take n := fun n hmem =>
    hdigits (List.mem_of_mem_take hmem)
  have hdrop : ∀ n, sep ∉ (Nat.toDigits 10 a.coefficient).drop n := fun n hmem =>
    hdigits (List.mem_of_mem_drop hmem)
  have hzero : sep ≠ '0' := by
    rintro rfl
    exact absurd h.digit (by decide)
  have hbody : sep ∉ a.body := by
    unfold Money.body
    dsimp only
    split
    · exact hdigits
    · split
      · simp [htake, hdrop, h.point]
      · simp [hzero, hdigits, h.point]
  rw [Money.canon_toList]
  split
  · simp [hbody, h.minus]
  · exact hbody

theorem option_hk_toList (c : OptionContract) : (Contract.option c).hk.toList =
    (((("O\x01" ++ c.underlying).toList ++ '\x01' :: c.expiry.iso.toList) ++
      '\x01' :: c.strike.canon.toList) ++ '\x01' :: c.right.code.toList) ++
        '\x01' :: (toString c.multiplier).toList := by
  simp [Contract.hk, String.toList_append]

attribute [ext] ContractMonth FutureContract

theorem OptionContract.ext {c e : OptionContract} (hu : c.underlying = e.underlying)
    (he : c.expiry = e.expiry) (hs : c.strike = e.strike) (hr : c.right = e.right)
    (hm : c.multiplier = e.multiplier) : c = e := by
  cases c
  cases e
  rw [OptionContract.mk.injEq]
  exact ⟨hu, he, hs, hr, hm⟩

theorem right_code_injective : Function.Injective Right.code := by
  intro r r' h
  cases r <;> cases r' <;> simp_all [Right.code]

theorem pos_toString_injective {m n : Int} (hm : 0 < m) (hn : 0 < n)
    (h : (toString m).toList = (toString n).toList) : m = n := by
  obtain ⟨k, rfl⟩ := Int.eq_ofNat_of_zero_le hm.le
  obtain ⟨l, rfl⟩ := Int.eq_ofNat_of_zero_le hn.le
  rw [toString_natCast_toList, toString_natCast_toList] at h
  rw [toDigits_injective h]

theorem option_hk_inj {c e : OptionContract} (h : (Contract.option c).hk = (Contract.option e).hk) :
    c = e := by
  have hl := congrArg String.toList h
  rw [option_hk_toList, option_hk_toList] at hl
  have hright : ∀ r : Right, '\x01' ∉ r.code.toList := by
    intro r
    cases r <;> decide
  have hmult : ∀ c : OptionContract, '\x01' ∉ (toString c.multiplier).toList := by
    intro c
    obtain ⟨n, hn⟩ := Int.eq_ofNat_of_zero_le c.multiplier_pos.le
    rw [hn, toString_natCast_toList]
    exact notMem_toDigits (by decide) n
  obtain ⟨hl, hm⟩ := append_cons_inj_right (hmult c) (hmult e) hl
  obtain ⟨hl, hr⟩ := append_cons_inj_right (hright _) (hright _) hl
  obtain ⟨hl, hs⟩ := append_cons_inj_right (separates_one.notMem_canon _) (separates_one.notMem_canon _) hl
  obtain ⟨hu, he⟩ := append_cons_inj_right (separates_one.notMem_iso _) (separates_one.notMem_iso _) hl
  have hu := (String.append_right_inj _).mp (String.toList_injective hu)
  have he := NaiveDate.iso_injective (String.toList_injective he)
  have hs := Money.canon_injective (String.toList_injective hs)
  have hr := right_code_injective (String.toList_injective hr)
  have hm := pos_toString_injective c.multiplier_pos e.multiplier_pos hm
  exact OptionContract.ext hu he hs hr hm

/-- The month part of a future's key. -/
def monthText : Option ContractMonth → String
  | some m => padZeros 4 (toString m.year) ++ "-" ++ padZeros 2 (toString m.month)
  | none => ""

theorem monthText_toList (m : ContractMonth) : (monthText (some m)).toList =
    (padZeros 4 (toString m.year)).toList ++ '-' :: (padZeros 2 (toString m.month)).toList := by
  simp only [monthText, String.toList_append, List.append_assoc]
  rfl

theorem nil_ne_monthText (m : ContractMonth) : (monthText none).toList ≠ (monthText (some m)).toList := by
  have hdash : '-' ∈ (monthText (some m)).toList := by
    simp only [monthText, String.toList_append, List.mem_append]
    exact Or.inl (Or.inr (by decide))
  intro h
  rw [← h] at hdash
  exact absurd hdash (by decide)

theorem monthText_injective : Function.Injective monthText := by
  intro m m' h
  have hl := congrArg String.toList h
  cases m with
  | none =>
      cases m' with
      | none => rfl
      | some m' => exact absurd hl (nil_ne_monthText m')
  | some m =>
      cases m' with
      | none => exact absurd hl.symm (nil_ne_monthText m)
      | some m' =>
          rw [monthText_toList, monthText_toList] at hl
          obtain ⟨hy, hm⟩ := append_cons_inj_right (notMem_padZeros (by decide) 2 _)
            (notMem_padZeros (by decide) 2 _) hl
          have hy := padZeros_int_inj (String.toList_injective hy)
          have hm : m.month = m'.month := by
            rw [← ofDigitChars_padZeros 2 m.month, ← ofDigitChars_padZeros 2 m'.month, hm]
          rw [ContractMonth.ext hy hm]

theorem Separates.notMem_monthText {sep : Char} (h : Separates sep) (m : Option ContractMonth) :
    sep ∉ (monthText m).toList := by
  cases m with
  | none => simp [monthText]
  | some m =>
      obtain ⟨n, hn⟩ := Int.eq_ofNat_of_zero_le (by have := m.year_mem.1; omega : 0 ≤ m.year)
      rw [monthText_toList, hn, List.mem_append, List.mem_cons, not_or, not_or]
      exact ⟨notMem_padZeros h.digit 4 n, h.minus, notMem_padZeros h.digit 2 _⟩

theorem future_hk_toList (f : FutureContract) : (Contract.future f).hk.toList =
    ((("F\x01" ++ f.root).toList ++ '\x01' :: (monthText f.contractMonth).toList) ++
      '\x01' :: f.tickSize.canon.toList) ++ '\x01' :: f.pointValue.canon.toList := by
  simp only [Contract.hk]
  cases f.contractMonth <;> simp [monthText, String.toList_append]

theorem future_hk_inj {f g : FutureContract} (h : (Contract.future f).hk = (Contract.future g).hk) :
    f = g := by
  have hl := congrArg String.toList h
  rw [future_hk_toList, future_hk_toList] at hl
  obtain ⟨hl, hp⟩ := append_cons_inj_right (separates_one.notMem_canon _) (separates_one.notMem_canon _) hl
  obtain ⟨hl, ht⟩ := append_cons_inj_right (separates_one.notMem_canon _) (separates_one.notMem_canon _) hl
  obtain ⟨hr, hm⟩ := append_cons_inj_right (separates_one.notMem_monthText _) (separates_one.notMem_monthText _) hl
  have hr := (String.append_right_inj _).mp (String.toList_injective hr)
  have hm := monthText_injective (String.toList_injective hm)
  have ht := Money.canon_injective (String.toList_injective ht)
  have hp := Money.canon_injective (String.toList_injective hp)
  exact FutureContract.ext hr hm ht hp

/-- The letter a contract's key starts with. -/
def Contract.letter : Contract → Char
  | .equity _ => 'E'
  | .option _ => 'O'
  | .future _ => 'F'

theorem Contract.hk_letter (c : Contract) : c.hk.toList.head? = some c.letter := by
  cases c <;> simp [Contract.hk, Contract.letter, String.toList_append]

/-- Contracts of one key are one contract. -/
theorem Contract.hk_injective : Function.Injective Contract.hk := by
  intro c d h
  have hh := congrArg (fun s : String => s.toList.head?) h
  simp only [Contract.hk_letter] at hh
  cases c with
  | equity s =>
      cases d with
      | equity t =>
          rw [Contract.hk, Contract.hk] at h
          rw [(String.append_right_inj _).mp h]
      | option d => simp [letter] at hh
      | future g => simp [letter] at hh
  | option c =>
      cases d with
      | equity t => simp [letter] at hh
      | option d => rw [option_hk_inj h]
      | future g => simp [letter] at hh
  | future f =>
      cases d with
      | equity t => simp [letter] at hh
      | option d => simp [letter] at hh
      | future g => rw [future_hk_inj h]

/-! ## Equality -/

theorem OptionContract.same_iff {c e : OptionContract} : c.same e = true ↔ c = e := by
  constructor
  · intro h
    simp only [OptionContract.same, Bool.and_eq_true, beq_iff_eq, Money.eqNum_iff] at h
    obtain ⟨⟨⟨⟨hu, he⟩, hs⟩, hr⟩, hm⟩ := h
    exact OptionContract.ext hu he (Money.val_injective hs) hr hm
  · rintro rfl
    simp [OptionContract.same]

theorem FutureContract.same_iff {f g : FutureContract} : f.same g = true ↔ f = g := by
  constructor
  · intro h
    simp only [FutureContract.same, Bool.and_eq_true, beq_iff_eq, Money.eqNum_iff] at h
    obtain ⟨⟨⟨hr, hm⟩, ht⟩, hp⟩ := h
    exact FutureContract.ext hr hm (Money.val_injective ht) (Money.val_injective hp)
  · rintro rfl
    simp [FutureContract.same]

theorem Contract.same_iff {c d : Contract} : c.same d = true ↔ c = d := by
  cases c with
  | equity s => cases d <;> simp [Contract.same]
  | option c => cases d <;> simp [Contract.same, OptionContract.same_iff]
  | future f => cases d <;> simp [Contract.same, FutureContract.same_iff]

attribute [ext] ComboLeg

theorem ComboLeg.same_iff {l m : ComboLeg} :
    (l.ratio == m.ratio && l.side == m.side && l.contract.same m.contract) = true ↔ l = m := by
  simp only [Bool.and_eq_true, beq_iff_eq, Contract.same_iff]
  constructor
  · rintro ⟨⟨hr, hs⟩, hc⟩
    exact ComboLeg.ext hc hr hs
  · rintro rfl
    exact ⟨⟨rfl, rfl⟩, rfl⟩

/-- Equal field by field is equal: an amount has one spelling. -/
@[simp] theorem Instrument.same_iff {i j : Instrument} : i.same j = true ↔ i = j := by
  have hlegs : ∀ a b : List ComboLeg, (a.length == b.length && (a.zip b).all fun p =>
      p.1.ratio == p.2.ratio && p.1.side == p.2.side && p.1.contract.same p.2.contract) = true ↔ a = b := by
    intro a
    induction a with
    | nil =>
        intro b
        cases b <;> simp
    | cons x a ih =>
        intro b
        cases b with
        | nil => simp
        | cons y b =>
            have hrest := ih b
            rw [Bool.and_eq_true, beq_iff_eq] at hrest
            rw [Bool.and_eq_true, beq_iff_eq, List.zip_cons_cons, List.all_cons, Bool.and_eq_true, ComboLeg.same_iff,
              List.length_cons, List.length_cons, Nat.succ_inj, List.cons.injEq, ← hrest]
            tauto
  cases i with
  | single c => cases j <;> simp [Instrument.same, Contract.same_iff]
  | combo a =>
      cases j with
      | single d => simp [Instrument.same]
      | combo b => rw [Instrument.same, hlegs, Instrument.combo.injEq]

@[simp] theorem Instrument.same_eq_false_iff {i j : Instrument} : i.same j = false ↔ i ≠ j := by
  rw [Bool.eq_false_iff, Ne, Instrument.same_iff]

end TradeEngine
