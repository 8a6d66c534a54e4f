import TradeEngine.Options.Lemmas.Occ

/-!
# OCC symbols round-trip

A contract's symbol is read back as the contract, and what the parser accepts is written in the canonical form of its text.
-/

namespace TradeEngine

open Lib

/-! ## The strike's text -/

theorem trimEndZeros_append (l : List Char) : ∃ k, l = trimEndZeros l ++ List.replicate k '0' := by
  have hzeros : ∀ c ∈ l.reverse.takeWhile (· = '0'), c = '0' := fun c hc => by simpa using List.mem_takeWhile_imp hc
  refine ⟨(l.reverse.takeWhile (· = '0')).length, ?_⟩
  rw [← List.reverse_replicate, ← List.eq_replicate_of_mem hzeros, trimEndZeros, ← List.reverse_append,
    List.takeWhile_append_dropWhile, List.reverse_reverse]

theorem toString_toList (n : Nat) : (toString n).toList = Nat.toDigits 10 n := toString_natCast_toList n

theorem point_notMem_toDigits (n : Nat) : '.' ∉ Nat.toDigits 10 n := notMem_toDigits rfl n

/-- The text of a number of thousandths stands for it. -/
theorem ofText_thousandths (n : Nat) : (((DecWire.ofText (thousandths n)).coefficient * 1000 : ℕ) : ℚ) *
    10 ^ (DecWire.ofText (thousandths n)).exp = n := by
  have hsplit : n / 1000 * 1000 + n % 1000 = n := Nat.div_add_mod' n 1000
  by_cases hwhole : n % 1000 = 0
  · have htext : (thousandths n).toList = Nat.toDigits 10 (n / 1000) := by
      rw [thousandths, if_pos hwhole, toString_toList]
    simp only [DecWire.ofText, htext, splitOnce_eq_none.2 (point_notMem_toDigits _), Option.getD_none, List.append_nil,
      digitsNumber_toDigits, List.length_nil, Nat.cast_zero, neg_zero, zpow_zero, mul_one]
    rw [hwhole, Nat.add_zero] at hsplit
    exact_mod_cast hsplit
  · have hfrac : (padZeros 3 (toString (n % 1000))).toList = fixedDigits 3 (n % 1000) :=
      padZeros_toList (by norm_num) (Nat.mod_lt n (by norm_num))
    have htext : (thousandths n).toList = Nat.toDigits 10 (n / 1000) ++ '.' :: trimEndZeros (fixedDigits 3 (n % 1000)) := by
      rw [thousandths, if_neg hwhole, hfrac, String.toList_append, String.toList_append, String.toList_ofList, toString_toList]
      simp
    -- the zeros trimmed make up for the exponent
    obtain ⟨k, hk⟩ := trimEndZeros_append (fixedDigits 3 (n % 1000))
    generalize trimEndZeros (fixedDigits 3 (n % 1000)) = frac at htext hk
    have hlen : frac.length + k = 3 := by
      have := congrArg List.length hk
      rw [length_fixedDigits, List.length_append, List.length_replicate] at this
      exact this.symm
    have hvalue : digitsNumber frac * 10 ^ k = n % 1000 := by
      have := congrArg digitsNumber hk
      rw [digitsNumber_fixedDigits, digitsNumber_append, digitsNumber_replicate, List.length_replicate, Nat.add_zero] at this
      omega
    have hpoint : splitOnce '.' (thousandths n).toList = some (Nat.toDigits 10 (n / 1000), frac) :=
      splitOnce_eq_some.2 ⟨htext, point_notMem_toDigits _⟩
    simp only [DecWire.ofText, hpoint, Option.getD_some, digitsNumber_append, digitsNumber_toDigits, zpow_neg, zpow_natCast]
    have hthousand : (1000 : ℕ) = 10 ^ frac.length * 10 ^ k := by
      rw [← pow_add, hlen]
      norm_num
    have hwhole' : (n / 1000 * 10 ^ frac.length + digitsNumber frac) * 1000 = n * 10 ^ frac.length := by
      calc (n / 1000 * 10 ^ frac.length + digitsNumber frac) * 1000
          = n / 1000 * 1000 * 10 ^ frac.length + digitsNumber frac * (10 ^ frac.length * 10 ^ k) := by
            rw [← hthousand]
            ring
        _ = (n / 1000 * 1000 + digitsNumber frac * 10 ^ k) * 10 ^ frac.length := by ring
        _ = n * 10 ^ frac.length := by rw [hvalue, hsplit]
    rw [hwhole']
    push_cast
    field_simp

theorem ofText_value (n : Nat) : (DecWire.ofText (thousandths n)).value * 1000 = n := by
  have h := ofText_thousandths n
  push_cast at h
  rw [← h, DecWire.value, if_neg (by simp [DecWire.ofText])]
  ring

/-! ## Writing and reading -/

/-- What the constructors let through: a normalised root, and a strike, a multiplier and a right they accept. -/
def ContractWire.Admitted (c : ContractWire) : Prop :=
  validateUnderlying c.underlying = .ok c.underlying ∧
    ∃ multiplier multiplierText right rightText, validateRest c.strike multiplier multiplierText right rightText = .ok c.right

theorem validateStrike_of_rest {strike : DecWire} {m r : Option String} {mt rt : String} {right : Right}
    (h : validateRest strike m mt r rt = .ok right) : strike.validateStrike = .ok () := by
  obtain ⟨u, hu, -⟩ := bind_eq_ok.1 h
  exact hu

/-- The symbol of a contract in the window is read as the contract's own pieces. -/
theorem parseOcc_occ {c : ContractWire} (hc : c.Admitted) (hy : 1969 ≤ c.expiry.year ∧ c.expiry.year ≤ 2068) {n : ℕ}
    (hn : c.strike.value * 1000 = n) : ∃ s, c.occ = .ok s ∧ parseOcc (some s) =
      .ok ⟨c.underlying, c.expiry.year, c.expiry.month, c.expiry.day, c.right, thousandths n⟩ := by
  obtain ⟨hroot, m, mt, r, rt, hrest⟩ := hc
  have hmillis := DecWire.strikeMillis_of_valid (validateStrike_of_rest hrest) hn
  obtain ⟨-, -, -, hpos, hle⟩ := DecWire.strikeMillis_ok hmillis
  obtain ⟨s, hs, htext⟩ := occ_toList hmillis hle
  refine ⟨s, hs, ?_⟩
  have hself : s = String.ofList (occText c.underlying.toList c.expiry c.right n) := by
    rw [← htext, String.ofList_toList]
  rw [hself, parseOcc_occText (rootText_of_valid hroot) hy c.right hpos.ne' hle, String.ofList_toList]

/-! ## Canonical forms -/

/-- The canonical spelling of a symbol's pieces: upper case, the root padded, the digits in ASCII. -/
def canonicalText (root date : List Char) (r : Char) (strike : List Char) : List Char :=
  root.map Char.toUpper ++ (List.replicate (6 - root.length) ' ' ++ (date.map asciiDigit ++ r.toUpper :: strike.map asciiDigit))

/-- A symbol and its canonical form. -/
def CanonicalForm (symbol canon : String) : Prop :=
  ∃ root blanks date r strike, Pieces (strip symbol).toList root blanks (date ++ r :: strike) ∧ date.length = 6 ∧
    strike.length = 8 ∧ canon.toList = canonicalText root date r strike

/-- The contract of what was parsed, as the constructor is given it. -/
def ParsedOcc.IsContract (p : ParsedOcc) (c : ContractWire) : Prop :=
  c.underlying = p.root ∧ (c.expiry.year = p.year ∧ c.expiry.month = p.month ∧ c.expiry.day = p.day) ∧ c.right = p.right ∧
    c.strike = DecWire.ofText p.strikeText

theorem isAlnum_toUpper {c : Char} (h : c.isAlphanum = true) : isAlnum c.toUpper = true := by
  have hcode : (65 ≤ c.toNat ∧ c.toNat ≤ 90) ∨ (97 ≤ c.toNat ∧ c.toNat ≤ 122) ∨ 48 ≤ c.toNat ∧ c.toNat ≤ 57 := by
    delta Char.isAlphanum Char.isAlpha Char.isUpper Char.isLower Char.isDigit at h
    simp [UInt32.le_iff_toNat_le] at h
    omega
  rcases hcode with hcode | hcode | hcode
  · rw [toUpper_of_isAlnum (isAlnum_iff.2 (.inl hcode))]
    exact isAlnum_iff.2 (.inl hcode)
  · have hall : ∀ k < 26, isAlnum (Char.ofNat (97 + k)).toUpper = true := by decide +kernel
    have hself : c = Char.ofNat (97 + (c.toNat - 97)) := by rw [Nat.add_sub_cancel' hcode.1, Char.ofNat_toNat]
    rw [hself]
    exact hall _ (by omega)
  · rw [toUpper_of_isAlnum (isAlnum_iff.2 (.inr hcode))]
    exact isAlnum_iff.2 (.inr hcode)

theorem rootText_map_toUpper {root : List Char} (hpos : 1 ≤ root.length) (hle : root.length ≤ 6)
    (h : ∀ c ∈ root, c.isAlphanum = true) : RootText (root.map Char.toUpper) := by
  refine ⟨by rw [List.length_map]; exact ⟨hpos, hle⟩, ?_⟩
  intro c hc
  obtain ⟨x, hx, rfl⟩ := List.mem_map.1 hc
  exact isAlnum_toUpper (h x hx)

theorem validateUnderlying_of_rootText {root : List Char} (h : RootText root) :
    validateUnderlying (String.ofList root) = .ok (String.ofList root) := by
  have hstrip : strip (String.ofList root) = String.ofList root := by
    apply String.toList_injective
    rw [strip_toList, String.toList_ofList]
    · exact fun c hc => isSpace_of_isAlnum (h.2 c (List.mem_of_mem_head? hc))
    · exact fun c hc => isSpace_of_isAlnum (h.2 c (List.mem_of_getLast? hc))
  have hempty : String.ofList root ≠ "" := by
    intro hempty
    have hnil := congrArg String.toList hempty
    rw [String.toList_ofList] at hnil
    have hpos := h.1.1
    rw [hnil] at hpos
    cases hpos
  have hlong : ¬ (String.ofList root).length > 6 := by
    rw [String.length_ofList]
    exact not_lt.2 h.1.2
  have halnum : (String.ofList root).toList.all isAlnum = true := by
    rw [String.toList_ofList]
    exact List.all_eq_true.2 h.2
  unfold validateUnderlying
  rw [hstrip, upper_toList h]
  simp only [hempty, hlong, halnum, if_false, if_true]
  rfl

theorem validateStrike_thousandths {n : ℕ} (hn : n ≠ 0) (hle : n ≤ 99999999) :
    (DecWire.ofText (thousandths n)).validateStrike = .ok () := by
  have hval := ofText_thousandths n
  have hpos : (DecWire.ofText (thousandths n)).coefficient ≠ 0 := by
    intro hzero
    rw [hzero] at hval
    simp only [Nat.cast_zero, zero_mul] at hval
    exact hn (by exact_mod_cast hval.symm)
  obtain ⟨hmillis, ce, hce, hint⟩ := DecWire.strikeMillis_eq hpos hval hn hle
  have hgood : ¬ ((DecWire.ofText (thousandths n)).special ≠ .finite ∨ (DecWire.ofText (thousandths n)).neg = true ∨
      (DecWire.ofText (thousandths n)).coefficient = 0) := by
    rintro (h | h | h)
    · exact h rfl
    · cases h
    · exact hpos h
  unfold DecWire.validateStrike
  dsimp only
  rw [if_neg hgood, hce, ok_bind, if_pos hint, hmillis]
  rfl

/-- The pieces of an accepted symbol. -/
theorem parseOcc_ok {symbol : Option String} {p : ParsedOcc} (h : parseOcc symbol = .ok p) :
    ∃ s root blanks date r strike, symbol = some s ∧ Pieces (strip s).toList root blanks (date ++ r :: strike) ∧
      date.length = 6 ∧ strike.length = 8 ∧ strptimeYmd date = .ok (p.year, p.month, p.day) ∧ digitsNumber strike ≠ 0 ∧
      p.root = upper (String.ofList root) ∧ p.right = rightOf r ∧ p.strikeText = thousandths (digitsNumber strike) := by
  unfold parseOcc at h
  cases symbol with
  | none => cases h
  | some s =>
    by_cases hs : s = ""
    · rw [Option.filter_some_neg (by simp [hs])] at h
      cases h
    rw [Option.filter_some_pos (by simp [hs])] at h
    simp only at h
    cases hmatch : matchOcc (strip s).toList with
    | none =>
      rw [hmatch] at h
      cases h
    | some q =>
      obtain ⟨k, i⟩ := q
      rw [hmatch] at h
      simp only at h
      obtain ⟨blanks, hpieces, hki⟩ := matchOcc_some hmatch
      generalize hchars : (strip s).toList = chars at *
      have hlen := hpieces.tail_length
      rw [List.length_drop] at hlen
      have hget : i + 6 < chars.length := by omega
      obtain ⟨r, htail, hhead⟩ : ∃ r, chars.drop i = (chars.drop i).take 6 ++ r :: chars.drop (i + 7) ∧
          (chars.drop (i + 6)).headD ' ' = r := by
        refine ⟨chars[i + 6], ?_, ?_⟩
        · rw [← List.drop_eq_getElem_cons hget, ← List.drop_drop, List.take_append_drop]
        · rw [List.drop_eq_getElem_cons hget]
          rfl
      rw [hhead] at h
      rw [htail] at hpieces
      have hdate : ((chars.drop i).take 6).length = 6 := by
        rw [List.length_take, List.length_drop]
        omega
      have hstrike : (chars.drop (i + 7)).length = 8 := by
        rw [List.length_drop]
        omega
      split at h
      · cases h
      · rename_i year month day hread
        split_ifs at h with hzero
        have hp := Except.ok.inj h
        subst hchars
        refine ⟨s, (strip s).toList.take k, blanks, ((strip s).toList.drop i).take 6, r, (strip s).toList.drop (i + 7), rfl,
          hpieces, hdate, hstrike, ?_, hzero, ?_, ?_, ?_⟩
        · rw [hread, ← hp]
        · rw [← hp]
        · rw [← hp]
        · rw [← hp]

theorem tailShape_append {date strike : List Char} {r : Char} (hdate : date.length = 6)
    (h : tailShape (date ++ r :: strike) = true) :
    (∀ c ∈ date, isDigit c = true) ∧ r ∈ ['C', 'P', 'c', 'p'] ∧ ∀ c ∈ strike, isDigit c = true := by
  have htake : (date ++ r :: strike).take 6 = date := List.take_left' hdate
  have hget : (date ++ r :: strike)[6]? = some r := by
    rw [List.getElem?_append_right hdate.le, hdate]
    rfl
  have hdrop : (date ++ r :: strike).drop 7 = strike := by
    rw [List.append_cons]
    exact List.drop_left' (by simp [hdate])
  simp only [tailShape, htake, hget, hdrop, Option.any_some, Bool.and_eq_true, List.all_eq_true] at h
  exact ⟨h.1.1, List.contains_iff_mem.1 h.1.2, h.2⟩

theorem toUpper_right {r : Char} (h : r ∈ ['C', 'P', 'c', 'p']) : r.toUpper = (rightOf r).char := by
  simp only [List.mem_cons, List.not_mem_nil, or_false] at h
  rcases h with rfl | rfl | rfl | rfl
  · rfl
  · rfl
  · rfl
  · rfl

/-- What was parsed is the contract of its canonical form. -/
theorem parseOcc_canonical {symbol : Option String} {p : ParsedOcc} (h : parseOcc symbol = .ok p) :
    ∃ s c canon, symbol = some s ∧ p.IsContract c ∧ c.Admitted ∧ c.occ = .ok canon ∧ CanonicalForm s canon ∧
      parseOcc (some canon) = .ok p := by
  obtain ⟨s, root, blanks, date, r, strike, rfl, hpieces, hdate, hstrike, hread, hzero, hroot, hright, htext⟩ := parseOcc_ok h
  obtain ⟨hdateDigits, hr, -⟩ := tailShape_append hdate hpieces.tail_shape
  obtain ⟨hwindow, hmonth, hday, hspelt⟩ := strptimeYmd_ok hdate hdateDigits hread
  have hle : digitsNumber strike ≤ 99999999 := by
    have hlt := digitsNumber_lt strike
    rw [hstrike] at hlt
    omega
  have hrootText := rootText_map_toUpper hpieces.root_pos hpieces.root_le hpieces.root_alnum
  have hupper : p.root = String.ofList (root.map Char.toUpper) := by rw [hroot, upper, String.toList_ofList]
  -- the contract has the date read and the strike's text as its decimal
  generalize hexpiry : (⟨p.year, p.month, p.day, hmonth, hday⟩ : NaiveDate) = expiry
  have hyear : expiry.year = p.year := by rw [← hexpiry]
  have hmonth' : expiry.month = p.month := by rw [← hexpiry]
  have hday' : expiry.day = p.day := by rw [← hexpiry]
  generalize hc : (⟨p.root, expiry, p.right, DecWire.ofText p.strikeText⟩ : ContractWire) = c
  have hcr : c.underlying = p.root := by rw [← hc]
  have hce : c.expiry = expiry := by rw [← hc]
  have hcs : c.strike = DecWire.ofText (thousandths (digitsNumber strike)) := by rw [← hc, htext]
  have hcright : c.right = p.right := by rw [← hc]
  have hadmitted : c.Admitted := by
    refine ⟨by rw [hcr, hupper]; exact validateUnderlying_of_rootText hrootText, some "100", "100", some c.right.code, "", ?_⟩
    unfold validateRest
    rw [hcs, validateStrike_thousandths hzero hle, ok_bind]
    cases c.right with
    | call => rfl
    | put => rfl
  have hval : c.strike.value * 1000 = digitsNumber strike := by rw [hcs, ofText_value]
  have hmillis : c.strike.strikeMillis = .ok (digitsNumber strike) := by
    obtain ⟨-, m, mt, rr, rt, hrest⟩ := hadmitted
    exact DecWire.strikeMillis_of_valid (validateStrike_of_rest hrest) hval
  obtain ⟨canon, hcanon, hcanonText⟩ := occ_toList hmillis hle
  obtain ⟨canon', hcanon', hback⟩ := parseOcc_occ hadmitted (by rw [hce, hyear]; exact hwindow) hval
  obtain rfl : canon = canon' := Except.ok.inj (hcanon.symm.trans hcanon')
  refine ⟨s, c, canon, rfl, ⟨hcr, by rw [hce, hyear, hmonth', hday']; exact ⟨rfl, rfl, rfl⟩, hcright, by rw [hcs, htext]⟩,
    hadmitted, hcanon, ⟨root, blanks, date, r, strike, hpieces, hdate, hstrike, ?_⟩, ?_⟩
  · have hdigits : dateDigits expiry = date.map asciiDigit := by
      rw [hspelt, dateDigits, hyear, hmonth', hday']
    have hstrikeDigits : fixedDigits 8 (digitsNumber strike) = strike.map asciiDigit := by
      rw [← fixedDigits_digitsNumber, hstrike]
    rw [hcanonText, hcr, hupper, hce, hcright, hright, String.toList_ofList, occText, canonicalText, hdigits, hstrikeDigits,
      toUpper_right hr, List.length_map]
  · rw [hback, hcr, hce, hyear, hmonth', hday', hcright, ← htext]

theorem occ_round_trip :
    (∀ c : ContractWire, c.Admitted → 1969 ≤ c.expiry.year → c.expiry.year ≤ 2068 → (∃ n : ℕ, c.strike.value * 1000 = n) →
      ∃ s p, c.occ = .ok s ∧ parseOcc (some s) = .ok p ∧ p.root = c.underlying ∧ p.year = c.expiry.year ∧
        p.month = c.expiry.month ∧ p.day = c.expiry.day ∧ p.right = c.right ∧
        (DecWire.ofText p.strikeText).value = c.strike.value) ∧
    ∀ symbol p, parseOcc symbol = .ok p → ∃ s c canon, symbol = some s ∧ p.IsContract c ∧ c.Admitted ∧
      c.occ = .ok canon ∧ CanonicalForm s canon ∧ parseOcc (some canon) = .ok p := by
  constructor
  · intro c hc hlow hhigh hn
    obtain ⟨n, hn⟩ := hn
    obtain ⟨s, hs, hparse⟩ := parseOcc_occ hc ⟨hlow, hhigh⟩ hn
    refine ⟨s, _, hs, hparse, rfl, rfl, rfl, rfl, rfl, ?_⟩
    have htext := ofText_value n
    have hthousand : (1000 : ℚ) ≠ 0 := by norm_num
    exact mul_right_cancel₀ hthousand (htext.trans hn.symm)
  · exact fun symbol p h => parseOcc_canonical h

namespace Sample

/-- The 150.5 call of a weekly index root, its strike with trailing zeros. -/
def weekly : ContractWire :=
  ⟨"SPXW", .ymd 2068 2 29, .call, ⟨false, 150500, -3, .finite, "150.500"⟩⟩

end Sample

theorem occ_round_trip_weekly : Sample.weekly.Admitted ∧ ∃ s p, Sample.weekly.occ = .ok s ∧ parseOcc (some s) = .ok p ∧
    p.root = "SPXW" ∧ p.year = 2068 ∧ p.month = 2 ∧ p.day = 29 := by
  have hroot : (validateUnderlying Sample.weekly.underlying).toOption = some Sample.weekly.underlying := by decide +kernel
  have hrest : (validateRest Sample.weekly.strike (some "100") "100" (some "C") "C").toOption = some .call := by decide +kernel
  have hadmitted : Sample.weekly.Admitted :=
    ⟨toOption_eq_some.1 hroot, some "100", "100", some "C", "C", toOption_eq_some.1 hrest⟩
  have hvalue : Sample.weekly.strike.value * 1000 = (150500 : ℕ) := by
    norm_num [DecWire.value, Sample.weekly]
  obtain ⟨s, p, hs, hp, hr, hy, hm, hd, -⟩ :=
    occ_round_trip.1 Sample.weekly hadmitted (by decide +kernel) (by decide +kernel) ⟨150500, hvalue⟩
  have hdate : Sample.weekly.expiry.year = 2068 ∧ Sample.weekly.expiry.month = 2 ∧ Sample.weekly.expiry.day = 29 := by
    decide +kernel
  exact ⟨hadmitted, s, p, hs, hp, hr, hy.trans hdate.1, hm.trans hdate.2.1, hd.trans hdate.2.2⟩

end TradeEngine
