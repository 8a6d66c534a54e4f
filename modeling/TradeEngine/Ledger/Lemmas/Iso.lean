import TradeEngine.Ledger.Iso
import TradeEngine.Ledger.Lemmas.Keys
import TradeEngine.Options.Lemmas.Occ

/-!
# The ISO text of a datetime, piece by piece

Every piece has a fixed width, so the parser finds it where the writer put it.
-/

namespace TradeEngine

open Lib

/-! ## Digits -/

theorem isDigit_of_fixed {w n : Nat} {c : Char} (h : c ∈ fixedDigits w n) : c.isDigit = true := by
  have hall : ∀ k < 10, (Nat.digitChar k).isDigit = true := by decide
  obtain ⟨k, hk, rfl⟩ := mem_fixedDigits h
  exact hall k hk

theorem ne_of_fixed {w n : Nat} {c d : Char} (h : c ∈ fixedDigits w n) (hd : d.isDigit = false) : c ≠ d := by
  rintro rfl
  rw [isDigit_of_fixed h] at hd
  cases hd

theorem notMem_fixed {w n : Nat} {d : Char} (hd : d.isDigit = false) : d ∉ fixedDigits w n := fun h => ne_of_fixed h hd rfl

theorem asciiDigits_fixed (w n : Nat) : asciiDigits (fixedDigits (w + 1) n) = true := by
  unfold asciiDigits
  rw [Bool.and_eq_true, List.all_eq_true]
  refine ⟨?_, fun c hc => isDigit_of_fixed hc⟩
  have hlen := length_fixedDigits (w + 1) n
  cases h : fixedDigits (w + 1) n with
  | nil =>
    rw [h] at hlen
    cases hlen
  | cons => rfl

theorem ofDigitChars_fixed (w n : Nat) : Nat.ofDigitChars 10 (fixedDigits w n) 0 = n % 10 ^ w := by
  induction w generalizing n with
  | zero => simp [fixedDigits, Nat.mod_one]
  | succ w ih =>
    rw [fixedDigits, Nat.ofDigitChars_append, ih, Nat.ofDigitChars_cons_digitChar_of_lt_ten (Nat.mod_lt n (by norm_num)),
      Nat.ofDigitChars_nil, pow_succ', Nat.mod_mul]
    omega

theorem num_fixed {w n : Nat} (hn : n < 10 ^ (w + 1)) : num (fixedDigits (w + 1) n) = n := by
  rw [num, if_pos (asciiDigits_fixed w n), ofDigitChars_fixed, Nat.mod_eq_of_lt hn]

/-! ## The date -/

/-- A date at the start of a text is read whole, whatever follows. -/
theorem datePrefix_fixed {y m d : Nat} (hy : y < 10 ^ 4) (hm : m < 10 ^ 2) (hd : d < 10 ^ 2) (rest : List Char) :
    datePrefix (fixedDigits 4 y ++ '-' :: (fixedDigits 2 m ++ '-' :: (fixedDigits 2 d ++ rest))) = some (y, m, d, rest) := by
  have hy4 := length_fixedDigits 4 y
  have hm2 := length_fixedDigits 2 m
  have hd2 := length_fixedDigits 2 d
  have hyd := asciiDigits_fixed 3 y
  have hmd := asciiDigits_fixed 1 m
  have hdd := asciiDigits_fixed 1 d
  have hyn : num (fixedDigits 4 y) = y := num_fixed hy
  have hmn : num (fixedDigits 2 m) = m := num_fixed hm
  have hdn : num (fixedDigits 2 d) = d := num_fixed hd
  generalize fixedDigits 4 y = ys at *
  generalize fixedDigits 2 m = ms at *
  generalize fixedDigits 2 d = ds at *
  obtain ⟨y1, y2, y3, y4, rfl⟩ := List.length_eq_four.1 hy4
  obtain ⟨m1, m2, rfl⟩ := List.length_eq_two.1 hm2
  obtain ⟨d1, d2, rfl⟩ := List.length_eq_two.1 hd2
  simp [datePrefix, hyd, hmd, hdd, hyn, hmn, hdn]

theorem makeDate_date (d : NaiveDate) (hy : 1 ≤ d.year) : makeDate d.year.toNat d.month d.day = .ok d := by
  have hyear : (d.year.toNat : ℤ) = d.year := Int.toNat_of_nonneg (by omega)
  have hd : 1 ≤ d.day ∧ d.day ≤ daysInMonth (d.year.toNat : ℤ) d.month := by
    rw [hyear]
    exact d.day_mem
  rw [makeDate, if_neg (by omega), dif_pos d.month_mem, dif_pos hd]
  exact congrArg Except.ok (NaiveDate.ext hyear rfl rfl)

/-! ## The clock and the offset -/

/-- Pieces of two digits between colons. -/
theorem clockParts_three (h m s : Nat) :
    clockParts (fixedDigits 2 h ++ ':' :: (fixedDigits 2 m ++ ':' :: fixedDigits 2 s)) =
      some [fixedDigits 2 h, fixedDigits 2 m, fixedDigits 2 s] := by
  have hcolon : ∀ n, ∀ c ∈ fixedDigits 2 n, (c == ':') = false := fun n c hc => by
    rw [beq_eq_false_iff_ne]
    exact ne_of_fixed hc (by decide)
  rw [clockParts, if_pos (by simp), List.splitOn_eq_splitOnP, List.splitOnP_append_cons_of_forall_mem (hcolon h) ':' (by simp),
    List.splitOnP_append_cons_of_forall_mem (hcolon m) ':' (by simp), List.splitOnP_eq_singleton (hcolon s)]

theorem clockParts_two (h m : Nat) :
    clockParts (fixedDigits 2 h ++ ':' :: fixedDigits 2 m) = some [fixedDigits 2 h, fixedDigits 2 m] := by
  have hcolon : ∀ n, ∀ c ∈ fixedDigits 2 n, (c == ':') = false := fun n c hc => by
    rw [beq_eq_false_iff_ne]
    exact ne_of_fixed hc (by decide)
  rw [clockParts, if_pos (by simp), List.splitOn_eq_splitOnP, List.splitOnP_append_cons_of_forall_mem (hcolon h) ':' (by simp),
    List.splitOnP_eq_singleton (hcolon m)]

theorem clockShape_fixed (ns : List Nat) (hne : ns ≠ []) (hlen : ns.length ≤ 3) :
    clockShape (ns.map (fixedDigits 2)) = true := by
  have hall : ∀ n, asciiDigits (fixedDigits 2 n) = true := asciiDigits_fixed 1
  simp [clockShape, hne, hlen, hall]

/-- The clock text of a time of day. -/
def clockText (sod us : Nat) : List Char :=
  fixedDigits 2 (sod / 3600) ++ ':' :: (fixedDigits 2 (sod % 3600 / 60) ++ ':' :: fixedDigits 2 (sod % 60)) ++
    if us = 0 then [] else '.' :: fixedDigits 6 us

theorem micros_fixed {us : Nat} (hus : us < 10 ^ 6) : micros (fixedDigits 6 us) = some us := by
  have hlen := length_fixedDigits 6 us
  rw [micros, if_pos (asciiDigits_fixed 5 us)]
  dsimp only
  rw [List.take_of_length_le hlen.le, hlen]
  simp [num_fixed hus]

/-- A character of a time without its fraction, or of an offset. -/
theorem clock_char {h m s : Nat} {c : Char}
    (hc : c ∈ fixedDigits 2 h ++ ':' :: (fixedDigits 2 m ++ ':' :: fixedDigits 2 s)) : c.isDigit = true ∨ c = ':' := by
  simp only [List.mem_append, List.mem_cons] at hc
  rcases hc with hc | rfl | hc | rfl | hc
  · exact .inl (isDigit_of_fixed hc)
  · exact .inr rfl
  · exact .inl (isDigit_of_fixed hc)
  · exact .inr rfl
  · exact .inl (isDigit_of_fixed hc)

theorem clock_ne {h m s : Nat} {c d : Char}
    (hc : c ∈ fixedDigits 2 h ++ ':' :: (fixedDigits 2 m ++ ':' :: fixedDigits 2 s)) (hd : d.isDigit = false) (hcolon : d ≠ ':') :
    c ≠ d := by
  rintro rfl
  rcases clock_char hc with h | h
  · rw [h] at hd
    cases hd
  · exact hcolon h

theorem splitFrac_main {main : List Char} (hmain : ∀ c ∈ main, c ≠ '.' ∧ c ≠ ',') (us : Nat) :
    splitFrac (main ++ if us = 0 then [] else '.' :: fixedDigits 6 us) =
      (main, if us = 0 then none else some (fixedDigits 6 us)) := by
  have hplain : ∀ c ∈ main, (c != '.' && c != ',') = true := fun c hc => by simp [hmain c hc]
  have htake : (main ++ if us = 0 then [] else '.' :: fixedDigits 6 us).takeWhile (fun c => c != '.' && c != ',') = main := by
    rw [List.takeWhile_append_of_pos hplain]
    split_ifs <;> simp
  rw [splitFrac, htake, List.drop_left]
  split_ifs <;> rfl

theorem timeOf_fixed {sod : Nat} (hsod : sod < 86400) (us : Nat) :
    timeOf [fixedDigits 2 (sod / 3600), fixedDigits 2 (sod % 3600 / 60), fixedDigits 2 (sod % 60)] us = .ok (sod, us) := by
  have hh : num (fixedDigits 2 (sod / 3600)) = sod / 3600 := num_fixed (by omega)
  have hmi : num (fixedDigits 2 (sod % 3600 / 60)) = sod % 3600 / 60 := num_fixed (by omega)
  have hse : num (fixedDigits 2 (sod % 60)) = sod % 60 := num_fixed (by omega)
  have hsum : sod / 3600 * 3600 + sod % 3600 / 60 * 60 + sod % 60 = sod := by omega
  simp only [timeOf, clockPart, List.getElem?_cons_zero, List.getElem?_cons_succ, Option.elim_some, hh, hmi, hse]
  rw [if_neg (by omega), if_neg (by omega), if_neg (by omega), hsum]

theorem parseTime_clockText {sod us : Nat} (hsod : sod < 86400) (hus : us < 10 ^ 6) :
    parseTime (clockText sod us) = some (.ok (sod, us)) := by
  have hmain : ∀ c ∈ fixedDigits 2 (sod / 3600) ++ ':' :: (fixedDigits 2 (sod % 3600 / 60) ++ ':' :: fixedDigits 2 (sod % 60)),
      c ≠ '.' ∧ c ≠ ',' := fun c hc => ⟨clock_ne hc (by decide) (by decide), clock_ne hc (by decide) (by decide)⟩
  have hshape := clockShape_fixed [sod / 3600, sod % 3600 / 60, sod % 60] (by simp) (by simp)
  rw [List.map_cons, List.map_cons, List.map_cons, List.map_nil] at hshape
  have hmicros : (if us = 0 then none else some (fixedDigits 6 us)).elim (some 0) micros = some us := by
    split_ifs with hzero
    · rw [hzero]
      rfl
    · exact micros_fixed hus
  rw [parseTime, clockText, splitFrac_main hmain]
  dsimp only
  rw [clockParts_three, Option.bind_some, if_neg (by simp [hshape]), hmicros, Option.map_some, timeOf_fixed hsod]

/-- The text of an offset without its sign. -/
def offsetText (a : Nat) : List Char :=
  fixedDigits 2 (a / 3600) ++ ':' :: (fixedDigits 2 (a % 3600 / 60) ++ if a % 60 = 0 then [] else ':' :: fixedDigits 2 (a % 60))

theorem clockParts_offset (a : Nat) : clockParts (offsetText a) =
    some ([a / 3600, a % 3600 / 60].map (fixedDigits 2) ++ if a % 60 = 0 then [] else [fixedDigits 2 (a % 60)]) := by
  unfold offsetText
  split_ifs
  · rw [List.append_nil]
    exact clockParts_two _ _
  · exact clockParts_three _ _ _

theorem parseOffset_offsetText {a : Nat} (ha : a < 86400) (neg : Bool) :
    parseOffset ((if neg then '-' else '+') :: offsetText a) = some (.ok (if neg then -(a : Int) else a)) := by
  have hpoint : ¬ (offsetText a).contains '.' = true := by
    rw [List.contains_iff_mem]
    unfold offsetText
    split_ifs <;> simp [notMem_fixed]
  have hhead : decide (((if neg then '-' else '+') :: offsetText a).head? = some '-') = neg := by
    cases neg <;> simp
  have hh : num (fixedDigits 2 (a / 3600)) = a / 3600 := num_fixed (by omega)
  have hmi : num (fixedDigits 2 (a % 3600 / 60)) = a % 3600 / 60 := num_fixed (by omega)
  have hse : num (fixedDigits 2 (a % 60)) = a % 60 := num_fixed (by omega)
  have hsum : a / 3600 * 3600 + a % 3600 / 60 * 60 + a % 60 = a := by omega
  have hparts : ∃ parts, clockParts (offsetText a) = some parts ∧ clockShape parts = true ∧
      clockPart parts 0 = a / 3600 ∧ clockPart parts 1 = a % 3600 / 60 ∧ clockPart parts 2 = a % 60 := by
    refine ⟨_, clockParts_offset a, ?_⟩
    by_cases hzero : a % 60 = 0
    · have hshape := clockShape_fixed [a / 3600, a % 3600 / 60] (by simp) (by simp)
      simpa [hzero, clockPart, hh, hmi] using hshape
    · have hshape := clockShape_fixed [a / 3600, a % 3600 / 60, a % 60] (by simp) (by simp)
      simpa [hzero, clockPart, hh, hmi, hse] using hshape
  obtain ⟨parts, hread, hshape, h0, h1, h2⟩ := hparts
  rw [parseOffset, hhead, List.drop_one, List.tail_cons, if_neg hpoint, hread, Option.bind_some, if_pos hshape, offsetOf, h0, h1, h2,
    if_neg (by omega), if_neg (by omega), hsum]

/-! ## The whole text -/

/-- A datetime Python can hold: a year of four digits, a time of the day, an offset of less than a day. -/
structure DateTime.InRange (t : DateTime) : Prop where
  year : 1 ≤ t.date.year ∧ t.date.year ≤ 9999
  sod : t.sod < 86400
  us : t.us < 10 ^ 6
  off : t.off.natAbs < 86400

theorem NaiveDate.iso_toList {d : NaiveDate} (hy : 1 ≤ d.year ∧ d.year ≤ 9999) : d.iso.toList =
    fixedDigits 4 d.year.toNat ++ '-' :: (fixedDigits 2 d.month ++ '-' :: fixedDigits 2 d.day) := by
  have hyear : toString d.year = toString d.year.toNat := by
    rw [← Int.toNat_of_nonneg (by omega : 0 ≤ d.year)]
    rfl
  have hday : d.day ≤ 31 := d.day_mem.2.trans (by unfold daysInMonth; split_ifs <;> omega)
  rw [NaiveDate.iso, hyear]
  simp only [String.toList_append]
  rw [padZeros_toList (by norm_num) (by omega), padZeros_toList (by norm_num) (by have := d.month_mem; omega),
    padZeros_toList (by norm_num) (by omega)]
  simp

/-- The text of a datetime, piece by piece. -/
theorem DateTime.iso_toList {t : DateTime} (h : t.InRange) : t.iso.toList =
    fixedDigits 4 t.date.year.toNat ++ '-' :: (fixedDigits 2 t.date.month ++ '-' :: (fixedDigits 2 t.date.day ++
      'T' :: (clockText t.sod t.us ++ (if decide (t.off < 0) then '-' else '+') :: offsetText t.off.natAbs))) := by
  have hsod := h.sod
  have hoff := h.off
  have htwo : ∀ n, n < 100 → (padZeros 2 (toString n)).toList = fixedDigits 2 n :=
    fun n hn => padZeros_toList (by norm_num) (by omega)
  have hmicros : (if t.us ≠ 0 then "." ++ padZeros 6 (toString t.us) else "").toList =
      if t.us = 0 then [] else '.' :: fixedDigits 6 t.us := by
    by_cases hzero : t.us = 0
    · rw [if_neg (not_not.2 hzero), if_pos hzero]
      rfl
    · rw [if_pos hzero, if_neg hzero, String.toList_append, padZeros_toList (by norm_num) h.us]
      rfl
  have hseconds : (if t.off.natAbs % 60 ≠ 0 then ":" ++ padZeros 2 (toString (t.off.natAbs % 60)) else "").toList =
      if t.off.natAbs % 60 = 0 then [] else ':' :: fixedDigits 2 (t.off.natAbs % 60) := by
    by_cases hzero : t.off.natAbs % 60 = 0
    · rw [if_neg (not_not.2 hzero), if_pos hzero]
      rfl
    · rw [if_pos hzero, if_neg hzero, String.toList_append, htwo _ (by omega)]
      rfl
  have hsign : (if t.off < 0 then "-" else "+").toList = [if decide (t.off < 0) then '-' else '+'] := by
    by_cases hneg : t.off < 0 <;> simp [hneg]
  rw [DateTime.iso]
  simp only [String.toList_append]
  rw [NaiveDate.iso_toList h.year, hmicros, hseconds, hsign, htwo _ (by omega), htwo _ (by omega), htwo _ (by omega),
    htwo _ (by omega), htwo _ (by omega), clockText, offsetText]
  simp

theorem splitZone_text {clock zone : List Char} {sign : Char} (hclock : ∀ c ∈ clock, c ≠ '+' ∧ c ≠ '-')
    (hsign : sign = '+' ∨ sign = '-') : splitZone (clock ++ sign :: zone) = (clock, some (sign :: zone)) := by
  have hplain : ∀ c ∈ clock, (c != '+' && c != '-') = true := fun c hc => by simp [hclock c hc]
  have htake : (clock ++ sign :: zone).takeWhile (fun c => c != '+' && c != '-') = clock := by
    rw [List.takeWhile_append_of_pos hplain]
    rcases hsign with rfl | rfl <;> simp
  rw [splitZone, htake, if_pos (by simp), List.drop_left]

theorem clockText_char {sod us : Nat} {c : Char} (hc : c ∈ clockText sod us) : c.isDigit = true ∨ c = ':' ∨ c = '.' := by
  unfold clockText at hc
  rcases List.mem_append.1 hc with hc | hc
  · exact (clock_char hc).imp_right .inl
  · split_ifs at hc
    · cases hc
    · rcases List.mem_cons.1 hc with rfl | hc
      · exact .inr (.inr rfl)
      · exact .inl (isDigit_of_fixed hc)

theorem clockText_ne {sod us : Nat} {c d : Char} (hc : c ∈ clockText sod us) (hd : d.isDigit = false) (hcolon : d ≠ ':')
    (hpoint : d ≠ '.') : c ≠ d := by
  rintro rfl
  rcases clockText_char hc with h | h | h
  · rw [h] at hd
    cases hd
  · exact hcolon h
  · exact hpoint h

theorem trimEndSpaces_clockText (sod us : Nat) : trimEndSpaces (clockText sod us) = clockText sod us := by
  have hkeep : (clockText sod us).reverse.dropWhile (· == ' ') = (clockText sod us).reverse := by
    cases hrev : (clockText sod us).reverse with
    | nil => rfl
    | cons c l =>
      have hmem : c ∈ clockText sod us := List.mem_reverse.1 (by rw [hrev]; simp)
      have hne : c ≠ ' ' := clockText_ne hmem (by decide) (by decide) (by decide)
      exact List.dropWhile_cons_of_neg (by simpa using hne)
  rw [trimEndSpaces, hkeep, List.reverse_reverse]

theorem parseClock_text {s : List Char} {t : DateTime} (h : t.InRange) :
    parseClock s t.date (clockText t.sod t.us ++ (if decide (t.off < 0) then '-' else '+') :: offsetText t.off.natAbs) =
      .ok (t, true) := by
  have hsign : (if decide (t.off < 0) then '-' else '+') = '+' ∨ (if decide (t.off < 0) then '-' else '+') = '-' := by
    by_cases hneg : t.off < 0 <;> simp [hneg]
  have hzone : (if decide (t.off < 0) then '-' else '+') :: offsetText t.off.natAbs ≠ ['Z'] := by
    intro heq
    have := (List.cons.inj heq).1
    split_ifs at this <;> cases this
  have hoff : (if decide (t.off < 0) then -(t.off.natAbs : Int) else t.off.natAbs) = t.off := by
    by_cases hneg : t.off < 0 <;> simp only [hneg, decide_true, decide_false, if_true, Bool.false_eq_true, if_false] <;> omega
  have hclock : ∀ c ∈ clockText t.sod t.us, c ≠ '+' ∧ c ≠ '-' := fun c hc =>
    ⟨clockText_ne hc (by decide) (by decide) (by decide), clockText_ne hc (by decide) (by decide) (by decide)⟩
  rw [parseClock, splitZone_text hclock hsign, trimEndSpaces_clockText, parseTime_clockText h.sod h.us, parseZone,
    if_neg hzone, parseOffset_offsetText h.off, hoff]
  rfl

/-- A datetime is read back from its text. -/
theorem parseDatetime_iso {t : DateTime} (h : t.InRange) : parseDatetime t.iso = .ok (t, true) := by
  have hchars : ∀ c ∈ t.iso.toList, c.isDigit = true ∨ c ∈ ['-', 'T', ':', '.', '+'] := by
    intro c hc
    rw [DateTime.iso_toList h] at hc
    simp only [List.mem_append, List.mem_cons] at hc
    rcases hc with hc | rfl | hc | rfl | hc | rfl | hc | rfl | hc
    · exact .inl (isDigit_of_fixed hc)
    · simp
    · exact .inl (isDigit_of_fixed hc)
    · simp
    · exact .inl (isDigit_of_fixed hc)
    · simp
    · rcases clockText_char hc with hc | rfl | rfl
      · exact .inl hc
      · simp
      · simp
    · split_ifs <;> simp
    · unfold offsetText at hc
      simp only [List.mem_append, List.mem_cons] at hc
      rcases hc with hc | rfl | hc | hc
      · exact .inl (isDigit_of_fixed hc)
      · simp
      · exact .inl (isDigit_of_fixed hc)
      · split_ifs at hc
        · cases hc
        · rcases List.mem_cons.1 hc with rfl | hc
          · simp
          · exact .inl (isDigit_of_fixed hc)
  have hascii : ¬ (t.iso.toList.any fun c => decide (128 ≤ c.toNat)) = true := by
    rw [List.any_eq_true]
    rintro ⟨c, hc, hbig⟩
    have hlt : c.toNat < 128 := by
      rcases hchars c hc with hd | hd
      · exact (Char.isDigit_iff_toNat.1 hd).2.trans_lt (by decide)
      · have hall : ['-', 'T', ':', '.', '+'].all (·.toNat < 128) = true := by decide
        simpa using List.all_eq_true.1 hall c hd
    simp only [decide_eq_true_eq] at hbig
    omega
  have hweek : ¬ t.iso.toList.contains 'W' = true := by
    rw [List.contains_iff_mem]
    intro hmem
    rcases hchars 'W' hmem with hd | hd
    · exact absurd hd (by decide)
    · exact absurd hd (by decide)
  have hday : t.date.day ≤ 31 := t.date.day_mem.2.trans (by unfold daysInMonth; split_ifs <;> omega)
  have hread := datePrefix_fixed (y := t.date.year.toNat) (m := t.date.month) (d := t.date.day)
    (by have := h.year; omega) (by have := t.date.month_mem; omega) (by omega)
    ('T' :: (clockText t.sod t.us ++ (if decide (t.off < 0) then '-' else '+') :: offsetText t.off.natAbs))
  rw [← DateTime.iso_toList h] at hread
  rw [parseDatetime, if_neg hascii, if_neg hweek, hread]
  refine bind_eq_ok.2 ⟨t.date, makeDate_date _ h.year.1, ?_⟩
  exact (if_neg (by simp)).trans (parseClock_text h)

end TradeEngine
