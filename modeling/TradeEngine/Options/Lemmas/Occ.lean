import TradeEngine.Calendar.Date
import TradeEngine.Lib.Digits
import TradeEngine.Lib.Text
import TradeEngine.Options.Lemmas.Strike

/-!
# Reading symbols

The digits of a symbol as numbers, the date among them, and where the pieces of a symbol stand.
-/

namespace TradeEngine

open Lib

/-! ## Digits -/

theorem digit_lt {c : Char} {v : Nat} (h : digit c = some v) : v < 10 := by
  obtain ⟨start, -, h⟩ := Option.bind_eq_some_iff.1 h
  split_ifs at h with hlt
  cases h
  exact hlt

theorem digitVal_lt (c : Char) : digitVal c < 10 := by
  unfold digitVal
  cases h : digit c with
  | none => exact Nat.succ_pos 9
  | some v => exact digit_lt h

theorem digitVal_digitChar {k : Nat} (h : k < 10) : digitVal (Nat.digitChar k) = k := by
  have hall : ∀ j < 10, digitVal (Nat.digitChar j) = j := by decide
  exact hall k h

theorem isDigit_digitChar {k : Nat} (h : k < 10) : isDigit (Nat.digitChar k) = true := by
  have hall : ∀ j < 10, isDigit (Nat.digitChar j) = true := by decide
  exact hall k h

theorem digitsNumber_append_singleton (l : List Char) (c : Char) :
    digitsNumber (l ++ [c]) = digitsNumber l * 10 + digitVal c := by
  simp [digitsNumber]

theorem digitsNumber_append (l r : List Char) : digitsNumber (l ++ r) = digitsNumber l * 10 ^ r.length + digitsNumber r := by
  induction r using List.reverseRecOn with
  | nil => simp [digitsNumber]
  | append_singleton r c ih =>
    rw [← List.append_assoc, digitsNumber_append_singleton, ih, digitsNumber_append_singleton, List.length_append,
      List.length_singleton, pow_succ]
    ring

theorem digitsNumber_lt (l : List Char) : digitsNumber l < 10 ^ l.length := by
  induction l using List.reverseRecOn with
  | nil => simp [digitsNumber]
  | append_singleton l c ih =>
    have := digitVal_lt c
    rw [digitsNumber_append_singleton, List.length_append, List.length_singleton, pow_succ]
    omega

theorem digitsNumber_fixedDigits (w n : Nat) : digitsNumber (fixedDigits w n) = n % 10 ^ w := by
  induction w generalizing n with
  | zero => simp [fixedDigits, digitsNumber, Nat.mod_one]
  | succ w ih =>
    rw [fixedDigits, digitsNumber_append_singleton, ih, digitVal_digitChar (Nat.mod_lt _ (by norm_num)), pow_succ,
      Nat.mul_comm (10 ^ w) 10, Nat.mod_mul]
    ring

/-- A digit in ASCII. -/
def asciiDigit (c : Char) : Char := Nat.digitChar (digitVal c)

/-- Digits of any script, written in ASCII, are the number they spell to their own width. -/
theorem fixedDigits_digitsNumber (l : List Char) : fixedDigits l.length (digitsNumber l) = l.map asciiDigit := by
  induction l using List.reverseRecOn with
  | nil => rfl
  | append_singleton l c ih =>
    have hlt := digitVal_lt c
    have hdiv : (digitsNumber l * 10 + digitVal c) / 10 = digitsNumber l := by omega
    have hmod : (digitsNumber l * 10 + digitVal c) % 10 = digitVal c := by omega
    rw [digitsNumber_append_singleton, List.length_append, List.length_singleton, fixedDigits, hdiv, hmod, ih, List.map_append]
    rfl

theorem isDigit_of_mem_fixedDigits {w n : Nat} {c : Char} (h : c ∈ fixedDigits w n) : isDigit c = true := by
  obtain ⟨k, hk, rfl⟩ := mem_fixedDigits h
  exact isDigit_digitChar hk

theorem digitsNumber_replicate (k : Nat) : digitsNumber (List.replicate k '0') = 0 := by
  rw [← fixedDigits_zero, digitsNumber_fixedDigits, Nat.zero_mod]

theorem digitsNumber_toDigits (n : Nat) : digitsNumber (Nat.toDigits 10 n) = n := by
  have hlt : n < 10 ^ (n + 1) := (Nat.lt_pow_self (by norm_num)).trans (Nat.pow_lt_pow_right (by norm_num) (Nat.lt_succ_self n))
  have hpad := replicate_append_toDigits (Nat.succ_pos n) hlt
  have hnumber := congrArg digitsNumber hpad
  rwa [digitsNumber_append, digitsNumber_replicate, digitsNumber_fixedDigits, Nat.mod_eq_of_lt hlt, Nat.zero_mul,
    Nat.zero_add] at hnumber

theorem padZeros_toList {w n : Nat} (hw : 0 < w) (hn : n < 10 ^ w) : (padZeros w (toString n)).toList = fixedDigits w n := by
  have htext : (toString n).toList = Nat.toDigits 10 n := toString_natCast_toList n
  have hunsigned : (toString n).toList.head? ≠ some '-' := by
    intro h
    rw [htext] at h
    exact notMem_toDigits (by decide) n (List.mem_of_mem_head? h)
  rw [← replicate_append_toDigits hw hn, padZeros_toList_of_unsigned hunsigned, htext, ← String.length_toList, htext]

/-! ## Dates -/

/-- Only the characters after the year decide the month and the day. -/
theorem findDate_cons (y1 y2 a b : Char) (r : List Char) : findDate (y1 :: y2 :: r) a b =
    (monthAlts a b).findSome? fun m => (dayAlts r[m.1]? r[m.1 + 1]?).head?.map fun d => (m.2, d.2, 2 + m.1 + d.1) := by
  unfold findDate
  congr
  funext m
  rw [Nat.add_comm 2 m.1, Nat.add_right_comm m.1 2 1]
  rfl

/-- A month and a day written with two digits each are found again. -/
theorem findDate_fixedDigits {m d : Nat} (hm : 1 ≤ m ∧ m ≤ 12) (hd : 1 ≤ d ∧ d ≤ 31) (y1 y2 : Char) :
    findDate (y1 :: y2 :: (fixedDigits 2 m ++ fixedDigits 2 d)) (Nat.digitChar (m / 10 % 10)) (Nat.digitChar (m % 10)) =
      some (m, d, 6) := by
  have hall : ∀ i < 12, ∀ j < 31, ((monthAlts (Nat.digitChar ((i + 1) / 10 % 10)) (Nat.digitChar ((i + 1) % 10))).findSome?
      fun m => (dayAlts (fixedDigits 2 (i + 1) ++ fixedDigits 2 (j + 1))[m.1]?
        (fixedDigits 2 (i + 1) ++ fixedDigits 2 (j + 1))[m.1 + 1]?).head?.map fun d => (m.2, d.2, 2 + m.1 + d.1)) =
      some (i + 1, j + 1, 6) := by decide
  obtain ⟨i, rfl⟩ := Nat.exists_eq_add_of_le' hm.1
  obtain ⟨j, rfl⟩ := Nat.exists_eq_add_of_le' hd.1
  rw [findDate_cons]
  exact hall i (by omega) j (by omega)

theorem pivotYear_mod {y : Int} (h : 1969 ≤ y ∧ y ≤ 2068) : pivotYear (y % 100).toNat = y := by
  unfold pivotYear
  split_ifs with hle
  · omega
  · omega

theorem mod_pivotYear {n : Nat} (h : n < 100) : (pivotYear n % 100).toNat = n ∧ 1969 ≤ pivotYear n ∧ pivotYear n ≤ 2068 := by
  unfold pivotYear
  split_ifs with hle
  · omega
  · omega

theorem asciiBetween_iff {c lo hi : Char} : asciiBetween (some c) lo hi = true ↔ lo.toNat ≤ c.toNat ∧ c.toNat ≤ hi.toNat := by
  simp [asciiBetween, Char.le_def, UInt32.le_iff_toNat_le]

/-- An ASCII digit by its code. -/
theorem digitVal_ascii {c : Char} (h : 48 ≤ c.toNat ∧ c.toNat ≤ 57) : digitVal c = c.toNat - 48 := by
  have hall : ∀ k < 10, digitVal (Char.ofNat (48 + k)) = k := by decide
  have hcode : c = Char.ofNat (48 + (c.toNat - 48)) := by
    rw [Nat.add_sub_cancel' h.1, Char.ofNat_toNat]
  rw [hcode, hall _ (by omega), ← hcode]

theorem asciiVal_spec {c lo hi : Char} (h : asciiBetween (some c) lo hi = true) (hlo : 48 ≤ lo.toNat) (hhi : hi.toNat ≤ 57) :
    digitVal c = asciiVal c ∧ lo.toNat - 48 ≤ asciiVal c ∧ asciiVal c ≤ hi.toNat - 48 := by
  have hcode := asciiBetween_iff.1 h
  rw [digitVal_ascii ⟨hlo.trans hcode.1, hcode.2.trans hhi⟩]
  exact ⟨rfl, Nat.sub_le_sub_right hcode.1 48, Nat.sub_le_sub_right hcode.2 48⟩

theorem digitVal_zero : digitVal '0' = 0 := digitVal_ascii (c := '0') (by decide)

theorem digitVal_one : digitVal '1' = 1 := digitVal_ascii (c := '1') (by decide)

theorem digitVal_three : digitVal '3' = 3 := digitVal_ascii (c := '3') (by decide)

theorem mem_monthAlts {a b : Char} {p : Nat × Nat} (h : p ∈ monthAlts a b) :
    (p.1 = 2 ∧ 1 ≤ p.2 ∧ p.2 ≤ 12 ∧ p.2 = digitVal a * 10 + digitVal b) ∨ p.1 = 1 := by
  simp only [monthAlts, List.mem_append] at h
  rcases h with (h | h) | h
  · split_ifs at h with hab
    · obtain rfl := List.mem_singleton.1 h
      obtain ⟨rfl, hb⟩ := hab
      obtain ⟨hval, -, hle⟩ := asciiVal_spec hb (by decide) (by decide)
      replace hle : asciiVal b ≤ 2 := hle
      rw [digitVal_one, hval]
      exact .inl ⟨rfl, Nat.le_add_right_of_le (by decide), Nat.add_le_add_left hle 10, rfl⟩
    · cases h
  · split_ifs at h with hab
    · obtain rfl := List.mem_singleton.1 h
      obtain ⟨rfl, hb⟩ := hab
      obtain ⟨hval, hge, hle⟩ := asciiVal_spec hb (by decide) (by decide)
      replace hle : asciiVal b ≤ 9 := hle
      rw [digitVal_zero, hval, Nat.zero_mul, Nat.zero_add]
      exact .inl ⟨rfl, hge, hle.trans (by decide), rfl⟩
    · cases h
  · split_ifs at h with hab
    · obtain rfl := List.mem_singleton.1 h
      exact .inr rfl
    · cases h

theorem mem_dayAlts {a b : Char} {p : Nat × Nat} (ha : isDigit a = true) (h : p ∈ dayAlts (some a) (some b)) :
    (p.1 = 2 ∧ 1 ≤ p.2 ∧ p.2 = digitVal a * 10 + digitVal b) ∨ p.1 = 1 := by
  simp only [dayAlts, List.mem_append, Option.some.injEq, Option.map_some, Option.getD_some, Option.any_some] at h
  rcases h with (((h | h) | h) | h) | h
  · split_ifs at h with hab
    · obtain rfl := List.mem_singleton.1 h
      obtain ⟨rfl, hb⟩ := hab
      obtain ⟨hval, -, -⟩ := asciiVal_spec hb (by decide) (by decide)
      rw [digitVal_three, hval]
      exact .inl ⟨rfl, Nat.le_add_right_of_le (by decide), rfl⟩
    · cases h
  · split_ifs at h with hab
    · obtain rfl := List.mem_singleton.1 h
      obtain ⟨hval, hge, -⟩ := asciiVal_spec hab.1 (by decide) (by decide)
      replace hge : 1 ≤ asciiVal a := hge
      rw [hval]
      exact .inl ⟨rfl, by simp only; omega, rfl⟩
    · cases h
  · split_ifs at h with hab
    · obtain rfl := List.mem_singleton.1 h
      obtain ⟨rfl, hb⟩ := hab
      obtain ⟨hval, hge, -⟩ := asciiVal_spec hb (by decide) (by decide)
      rw [digitVal_zero, hval, Nat.zero_mul, Nat.zero_add]
      exact .inl ⟨rfl, hge, rfl⟩
    · cases h
  · split_ifs at h with hab
    · obtain rfl := List.mem_singleton.1 h
      exact .inr rfl
    · cases h
  · split_ifs at h with hab
    · have hspace : isDigit ' ' = false := by decide
      rw [hab.1, hspace] at ha
      cases ha
    · cases h

/-- No alternative for the day takes more than two characters. -/
theorem dayAlts_le {a b : Option Char} {p : Nat × Nat} (h : p ∈ dayAlts a b) : p.1 ≤ 2 := by
  simp only [dayAlts, List.mem_append] at h
  rcases h with (((h | h) | h) | h) | h
  all_goals
    split_ifs at h
    · obtain rfl := List.mem_singleton.1 h
      exact Nat.le_of_ble_eq_true rfl
    · cases h

/-- The month and the day are the two pairs of digits after the year, when nothing is left over. -/
theorem findDate_some {y1 y2 a b c f : Char} {m d : Nat} (hc : isDigit c = true)
    (h : findDate [y1, y2, a, b, c, f] a b = some (m, d, 6)) :
    1 ≤ m ∧ m ≤ 12 ∧ 1 ≤ d ∧ m = digitsNumber [a, b] ∧ d = digitsNumber [c, f] := by
  rw [findDate_cons] at h
  obtain ⟨p, hp, h⟩ := List.exists_of_findSome?_eq_some h
  obtain ⟨q, hq, heq⟩ := Option.map_eq_some_iff.1 h
  obtain ⟨rfl, rfl, hend⟩ : p.2 = m ∧ q.2 = d ∧ 2 + p.1 + q.1 = 6 := by simpa using heq
  have hq' := List.mem_of_mem_head? hq
  have hle := dayAlts_le hq'
  obtain ⟨hp1, hm⟩ | hp1 := mem_monthAlts hp
  · rw [hp1] at hq'
    obtain ⟨-, hd⟩ | hq1 := mem_dayAlts hc hq'
    · refine ⟨hm.1, hm.2.1, hd.1, ?_, ?_⟩
      · rw [hm.2.2]
        simp [digitsNumber]
      · rw [hd.2]
        simp [digitsNumber]
    · omega
  · omega

/-- The six digits of a date in the window are read as that date. -/
theorem strptimeYmd_date {d : NaiveDate} (hy : 1969 ≤ d.year ∧ d.year ≤ 2068) :
    strptimeYmd (fixedDigits 2 (d.year % 100).toNat ++ (fixedDigits 2 d.month ++ fixedDigits 2 d.day)) =
      .ok (d.year, d.month, d.day) := by
  have hday : 1 ≤ d.day ∧ d.day ≤ 31 := ⟨d.day_mem.1, d.day_mem.2.trans (Calendar.daysInMonth_le _ _)⟩
  have hyear : digitVal (Nat.digitChar ((d.year % 100).toNat / 10 % 10)) * 10 +
      digitVal (Nat.digitChar ((d.year % 100).toNat % 10)) = (d.year % 100).toNat := by
    rw [digitVal_digitChar (Nat.mod_lt _ (by norm_num)), digitVal_digitChar (Nat.mod_lt _ (by norm_num))]
    omega
  have hfind := findDate_fixedDigits d.month_mem hday (Nat.digitChar ((d.year % 100).toNat / 10 % 10))
    (Nat.digitChar ((d.year % 100).toNat % 10))
  simp only [fixedDigits, List.nil_append, List.cons_append] at hfind ⊢
  simp only [strptimeYmd, hfind, hyear, pivotYear_mod hy]
  rw [if_neg (by simp), if_neg (not_lt.2 d.day_mem.2)]

/-- What the date reader accepts is a date of the window, spelt by its digits. -/
theorem strptimeYmd_ok {e : List Char} {y : Int} {m d : Nat} (hlen : e.length = 6) (hdigits : ∀ c ∈ e, isDigit c = true)
    (h : strptimeYmd e = .ok (y, m, d)) : (1969 ≤ y ∧ y ≤ 2068) ∧ (1 ≤ m ∧ m ≤ 12) ∧ (1 ≤ d ∧ d ≤ daysInMonth y m) ∧
      e.map asciiDigit = fixedDigits 2 (y % 100).toNat ++ (fixedDigits 2 m ++ fixedDigits 2 d) := by
  obtain ⟨y1, y2, a, b, c, f, rfl⟩ : ∃ y1 y2 a b c f, e = [y1, y2, a, b, c, f] := by
    rcases e with _ | ⟨y1, _ | ⟨y2, _ | ⟨a, _ | ⟨b, _ | ⟨c, _ | ⟨f, _ | ⟨g, l⟩⟩⟩⟩⟩⟩⟩ <;> simp at hlen
    exact ⟨y1, y2, a, b, c, f, rfl⟩
  simp only [strptimeYmd] at h
  cases hfind : findDate [y1, y2, a, b, c, f] a b with
  | none =>
    rw [hfind] at h
    cases h
  | some p =>
    obtain ⟨m', d', stop⟩ := p
    rw [hfind] at h
    simp only at h
    split_ifs at h with hstop hover
    cases h
    obtain rfl : stop = 6 := by simpa using hstop
    obtain ⟨hm1, hm2, hd1, hm, hd⟩ := findDate_some (hdigits c (by simp)) hfind
    have hyear : digitVal y1 * 10 + digitVal y2 = digitsNumber [y1, y2] := by simp [digitsNumber]
    have hpivot := mod_pivotYear (n := digitsNumber [y1, y2]) (digitsNumber_lt [y1, y2])
    rw [hyear] at hover ⊢
    refine ⟨hpivot.2, ⟨hm1, hm2⟩, ⟨hd1, not_lt.1 hover⟩, ?_⟩
    have htwo : ∀ u v : Char, fixedDigits 2 (digitsNumber [u, v]) = [asciiDigit u, asciiDigit v] :=
      fun u v => fixedDigits_digitsNumber [u, v]
    rw [hpivot.1, hm, hd, htwo, htwo, htwo]
    rfl

/-! ## Matching -/

/-- A symbol's pieces: root, blanks, and the tail of date, right and strike. -/
structure Pieces (chars root blanks tail : List Char) : Prop where
  eq : chars = root ++ (blanks ++ tail)
  root_pos : 1 ≤ root.length
  root_le : root.length ≤ 6
  root_alnum : ∀ c ∈ root, c.isAlphanum = true
  blanks_space : ∀ c ∈ blanks, isSpace c = true
  tail_length : tail.length = 15
  tail_shape : tailShape tail = true

theorem matchFrom_some {chars : List Char} {n k i : Nat} (h : matchFrom chars n = some (k, i)) :
    1 ≤ k ∧ k ≤ n ∧ i = k + ((chars.drop k).takeWhile isSpace).length ∧ chars.length = i + 15 ∧
      tailShape (chars.drop i) = true := by
  induction n with
  | zero => cases h
  | succ n ih =>
    rw [matchFrom] at h
    split_ifs at h with hshape
    · cases h
      simp only [Bool.and_eq_true, decide_eq_true_eq] at hshape
      exact ⟨Nat.succ_pos n, le_rfl, rfl, hshape.1, hshape.2⟩
    · obtain ⟨hpos, hle, hrest⟩ := ih h
      exact ⟨hpos, hle.trans (Nat.le_succ n), hrest⟩

theorem matchOcc_some {chars : List Char} {k i : Nat} (h : matchOcc chars = some (k, i)) :
    ∃ blanks, Pieces chars (chars.take k) blanks (chars.drop i) ∧ k ≤ i := by
  obtain ⟨hpos, hle, hi, hlen, hshape⟩ := matchFrom_some h
  have hsix : k ≤ 6 := hle.trans ((List.takeWhile_prefix _).length_le.trans (List.length_take_le 6 chars))
  refine ⟨(chars.drop k).takeWhile isSpace, ⟨?_, ?_, ?_, ?_, ?_, ?_, hshape⟩, ?_⟩
  · have hdrop : chars.drop i = (chars.drop k).dropWhile isSpace := by
      rw [hi, ← List.drop_drop]
      nth_rewrite 2 [← List.takeWhile_append_dropWhile (p := isSpace) (l := chars.drop k)]
      rw [List.drop_left]
    rw [hdrop, List.takeWhile_append_dropWhile, List.take_append_drop]
  · rw [List.length_take]
    omega
  · rw [List.length_take]
    omega
  · intro c hc
    have hpre : chars.take k <+: (chars.take 6).takeWhile Char.isAlphanum := by
      have hsub := (List.takeWhile_prefix Char.isAlphanum (l := chars.take 6)).trans (List.take_prefix 6 chars)
      exact List.prefix_of_prefix_length_le (List.take_prefix k chars) hsub (by rw [List.length_take]; omega)
    exact List.mem_takeWhile_imp (hpre.subset hc)
  · exact fun c hc => List.mem_takeWhile_imp hc
  · rw [List.length_drop]
    omega
  · omega

/-- A root padded to six characters is found whole. -/
theorem matchOcc_padded {root tail : List Char} (hpos : 1 ≤ root.length) (hle : root.length ≤ 6)
    (halnum : ∀ c ∈ root, c.isAlphanum = true) (hlen : tail.length = 15) (hshape : tailShape tail = true)
    (hhead : ∀ c ∈ tail.head?, isSpace c = false) :
    matchOcc (root ++ (List.replicate (6 - root.length) ' ' ++ tail)) = some (root.length, 6) := by
  have hroot : ((root ++ (List.replicate (6 - root.length) ' ' ++ tail)).take 6).takeWhile Char.isAlphanum = root := by
    have htake : (root ++ (List.replicate (6 - root.length) ' ' ++ tail)).take 6 =
        root ++ List.replicate (6 - root.length) ' ' := by
      rw [← List.append_assoc]
      apply List.take_left'
      simp
      omega
    rw [htake, List.takeWhile_append_of_pos halnum]
    cases 6 - root.length with
    | zero => simp
    | succ j => simp [List.replicate_succ, List.takeWhile_cons_of_neg (p := Char.isAlphanum) (a := ' ') (by decide)]
  have hblank : ((root ++ (List.replicate (6 - root.length) ' ' ++ tail)).drop root.length).takeWhile isSpace =
      List.replicate (6 - root.length) ' ' := by
    have hspace : ∀ c ∈ List.replicate (6 - root.length) ' ', isSpace c = true := by
      intro c hc
      rw [List.eq_of_mem_replicate hc]
      rfl
    rw [List.drop_left, List.takeWhile_append_of_pos hspace]
    cases tail with
    | nil => simp at hlen
    | cons c t =>
      have hc := hhead c rfl
      rw [List.takeWhile_cons_of_neg (by simp [hc]), List.append_nil]
  obtain ⟨n, hn⟩ := Nat.exists_eq_add_of_le' hpos
  unfold matchOcc
  rw [hroot, hn, matchFrom, ← hn, hblank]
  have hsix : root.length + (List.replicate (6 - root.length) ' ').length = 6 := by
    rw [List.length_replicate]
    omega
  have hdrop : (root ++ (List.replicate (6 - root.length) ' ' ++ tail)).drop 6 = tail := by
    rw [← List.append_assoc]
    apply List.drop_left'
    rw [List.length_append]
    exact hsix
  have htotal : (root ++ (List.replicate (6 - root.length) ' ' ++ tail)).length = 6 + 15 := by
    simp only [List.length_append, List.length_replicate, hlen]
    omega
  simp only [hsix, hdrop, htotal, hshape, decide_true, Bool.and_self, if_true]

/-! ## The text of a symbol -/

/-- Nothing is stripped from a text that neither starts nor ends with a blank. -/
theorem strip_toList {l : List Char} (hhead : ∀ c ∈ l.head?, isSpace c = false) (hlast : ∀ c ∈ l.getLast?, isSpace c = false) :
    (strip (String.ofList l)).toList = l := by
  have hkeep : ∀ {m : List Char}, (∀ c ∈ m.head?, isSpace c = false) → m.dropWhile isSpace = m := by
    intro m hm
    cases m with
    | nil => rfl
    | cons c m => exact List.dropWhile_cons_of_neg (by simp [hm c rfl])
  rw [strip, String.toList_ofList, String.toList_ofList, hkeep hhead, hkeep, List.reverse_reverse]
  intro c hc
  rw [List.head?_reverse] at hc
  exact hlast c hc

theorem isSpace_of_mem_fixedDigits {w n : Nat} {c : Char} (h : c ∈ fixedDigits w n) : isSpace c = false := by
  have hall : ∀ k < 10, isSpace (Nat.digitChar k) = false := by decide
  obtain ⟨k, hk, rfl⟩ := mem_fixedDigits h
  exact hall k hk

/-- The six digits of a date. -/
def dateDigits (d : NaiveDate) : List Char :=
  fixedDigits 2 (d.year % 100).toNat ++ (fixedDigits 2 d.month ++ fixedDigits 2 d.day)

def Right.char : Right → Char
  | .call => 'C'
  | .put => 'P'

/-- The canonical symbol: the root padded to six, the date, the right and the strike in thousandths. -/
def occText (root : List Char) (d : NaiveDate) (r : Right) (n : Nat) : List Char :=
  root ++ (List.replicate (6 - root.length) ' ' ++ (dateDigits d ++ r.char :: fixedDigits 8 n))

theorem length_dateDigits (d : NaiveDate) : (dateDigits d).length = 6 := by
  simp [dateDigits]

theorem isDigit_of_mem_dateDigits {d : NaiveDate} {c : Char} (h : c ∈ dateDigits d) : isDigit c = true := by
  simp only [dateDigits, List.mem_append] at h
  rcases h with h | h | h
  · exact isDigit_of_mem_fixedDigits h
  · exact isDigit_of_mem_fixedDigits h
  · exact isDigit_of_mem_fixedDigits h

theorem occ_toList {c : ContractWire} {n : Nat} (hn : c.strike.strikeMillis = .ok n) (hle : n ≤ 99999999) :
    ∃ s, c.occ = .ok s ∧ s.toList = occText c.underlying.toList c.expiry c.right n := by
  have hyear : toString (c.expiry.year % 100) = toString (c.expiry.year % 100).toNat := by
    have hcast : ((c.expiry.year % 100).toNat : Int) = c.expiry.year % 100 := Int.toNat_of_nonneg (Int.emod_nonneg _ (by norm_num))
    rw [← hcast]
    rfl
  have hmonth := c.expiry.month_mem
  have hday := c.expiry.day_mem.2.trans (Calendar.daysInMonth_le _ _)
  have hcode : c.right.code.toList = [c.right.char] := by
    cases c.right with
    | call => rfl
    | put => rfl
  unfold ContractWire.occ
  rw [hn, ok_bind]
  refine ⟨_, rfl, ?_⟩
  simp only [String.toList_append, String.toList_ofList, hyear, hcode, occText, dateDigits]
  rw [padZeros_toList (by norm_num) (by omega), padZeros_toList (by norm_num) (by omega), padZeros_toList (by norm_num) (by omega),
    padZeros_toList (by norm_num) (by omega), String.length_toList]
  simp

/-- Upper-case letters and digits. -/
def RootText (root : List Char) : Prop := (1 ≤ root.length ∧ root.length ≤ 6) ∧ ∀ c ∈ root, isAlnum c = true

theorem isAlnum_iff {c : Char} : isAlnum c = true ↔ (65 ≤ c.toNat ∧ c.toNat ≤ 90) ∨ 48 ≤ c.toNat ∧ c.toNat ≤ 57 := by
  simp [isAlnum, isUpper, Char.le_def, UInt32.le_iff_toNat_le]

theorem toUpper_of_isAlnum {c : Char} (h : isAlnum c = true) : c.toUpper = c := by
  have hcode := isAlnum_iff.1 h
  unfold Char.toUpper
  rw [dif_neg]
  simp [UInt32.le_iff_toNat_le]
  omega

theorem isAlphanum_of_isAlnum {c : Char} (h : isAlnum c = true) : c.isAlphanum = true := by
  have hcode := isAlnum_iff.1 h
  delta Char.isAlphanum Char.isAlpha Char.isUpper Char.isLower Char.isDigit
  simp [UInt32.le_iff_toNat_le]
  omega

theorem isSpace_of_isAlnum {c : Char} (h : isAlnum c = true) : isSpace c = false := by
  have hcode := isAlnum_iff.1 h
  simp [isSpace]
  omega

theorem rootText_of_valid {u : String} (h : validateUnderlying u = .ok u) : RootText u.toList := by
  unfold validateUnderlying at h
  generalize hund : upper (strip u) = und at h
  by_cases hempty : und = ""
  · simp [hempty] at h
  by_cases hlong : und.length > 6
  · simp [hempty, hlong] at h
  by_cases halnum : und.toList.all isAlnum = true
  · simp only [hempty, hlong, halnum, if_false, if_true, pure_eq_ok] at h
    subst h
    have hpos : 0 < und.toList.length := by
      rw [List.length_pos_iff]
      intro hnil
      exact hempty (String.toList_injective hnil)
    rw [← String.length_toList] at hlong
    exact ⟨⟨hpos, not_lt.1 hlong⟩, List.all_eq_true.1 halnum⟩
  · simp [hempty, hlong, halnum] at h

theorem upper_toList {root : List Char} (h : RootText root) : upper (String.ofList root) = String.ofList root := by
  have hself : ∀ c ∈ root, c.toUpper = id c := fun c hc => toUpper_of_isAlnum (h.2 c hc)
  rw [upper, String.toList_ofList, List.map_congr_left hself, List.map_id]

theorem strip_occText {root : List Char} (h : RootText root) (d : NaiveDate) (r : Right) (n : Nat) :
    (strip (String.ofList (occText root d r n))).toList = occText root d r n := by
  apply strip_toList
  · intro c hc
    obtain ⟨x, l, rfl⟩ := List.exists_cons_of_length_pos h.1.1
    obtain rfl : x = c := by simpa [occText] using hc
    exact isSpace_of_isAlnum (h.2 x (by simp))
  · intro c hc
    have hlast : (occText root d r n).getLast? = (fixedDigits 8 n).getLast? := by
      have hne : fixedDigits 8 n ≠ [] := by
        intro hnil
        have hlen := length_fixedDigits 8 n
        rw [hnil] at hlen
        cases hlen
      have happend : occText root d r n =
          (root ++ (List.replicate (6 - root.length) ' ' ++ (dateDigits d ++ [r.char]))) ++ fixedDigits 8 n := by
        simp [occText]
      rw [happend, List.getLast?_append_of_ne_nil _ hne]
    rw [hlast] at hc
    exact isSpace_of_mem_fixedDigits (List.mem_of_getLast? hc)

theorem tailShape_occ (d : NaiveDate) (r : Right) (n : Nat) : tailShape (dateDigits d ++ r.char :: fixedDigits 8 n) = true := by
  have hdate : (dateDigits d ++ r.char :: fixedDigits 8 n).take 6 = dateDigits d := List.take_left' (length_dateDigits d)
  have hget : (dateDigits d ++ r.char :: fixedDigits 8 n)[6]? = some r.char := by
    rw [List.getElem?_append_right (length_dateDigits d).le, length_dateDigits]
    rfl
  have hdrop : (dateDigits d ++ r.char :: fixedDigits 8 n).drop 7 = fixedDigits 8 n := by
    rw [List.append_cons]
    exact List.drop_left' (by simp [length_dateDigits])
  have hright : ['C', 'P', 'c', 'p'].contains r.char = true := by
    cases r with
    | call => rfl
    | put => rfl
  simp only [tailShape, hdate, hget, hdrop, Option.any_some, hright, Bool.and_eq_true, List.all_eq_true, and_true]
  exact ⟨fun c hc => isDigit_of_mem_dateDigits hc, fun c hc => isDigit_of_mem_fixedDigits hc⟩

/-- A canonical symbol is read as the pieces it was written from. -/
theorem parseOcc_occText {root : List Char} (hroot : RootText root) {d : NaiveDate} (hy : 1969 ≤ d.year ∧ d.year ≤ 2068)
    (r : Right) {n : Nat} (hn : n ≠ 0) (hle : n ≤ 99999999) : parseOcc (some (String.ofList (occText root d r n))) =
      .ok ⟨String.ofList root, d.year, d.month, d.day, r, thousandths n⟩ := by
  have hdate : dateDigits d ++ r.char :: fixedDigits 8 n =
      (occText root d r n).drop 6 := by
    have hsix : (root ++ List.replicate (6 - root.length) ' ').length = 6 := by
      rw [List.length_append, List.length_replicate]
      exact Nat.add_sub_cancel' hroot.1.2
    rw [occText, ← List.append_assoc, List.drop_left' hsix]
  have hmatch : matchOcc (occText root d r n) = some (root.length, 6) := by
    apply matchOcc_padded hroot.1.1 hroot.1.2 (fun c hc => isAlphanum_of_isAlnum (hroot.2 c hc))
    · simp [length_dateDigits]
    · exact tailShape_occ d r n
    · intro c hc
      apply isSpace_of_mem_fixedDigits (w := 2) (n := (d.year % 100).toNat)
      have hhead : (dateDigits d ++ r.char :: fixedDigits 8 n).head? = (fixedDigits 2 (d.year % 100).toNat).head? := by
        simp [dateDigits, fixedDigits]
      rw [hhead] at hc
      exact List.mem_of_mem_head? hc
  have hexp : ((occText root d r n).drop 6).take 6 = dateDigits d := by
    rw [← hdate]
    exact List.take_left' (length_dateDigits d)
  have hstrike : (occText root d r n).drop (6 + 7) = fixedDigits 8 n := by
    rw [← List.drop_drop, ← hdate, List.append_cons]
    exact List.drop_left' (by simp [length_dateDigits])
  have hright : rightOf (((occText root d r n).drop (6 + 6)).headD ' ') = r := by
    rw [← List.drop_drop, ← hdate, List.drop_left' (length_dateDigits d)]
    cases r with
    | call => rfl
    | put => rfl
  have hnumber : digitsNumber (fixedDigits 8 n) = n := by
    rw [digitsNumber_fixedDigits, Nat.mod_eq_of_lt (by omega)]
  have hnonempty : (String.ofList (occText root d r n)) ≠ "" := by
    intro hempty
    have hnil := congrArg String.toList hempty
    rw [String.toList_ofList] at hnil
    rw [hnil] at hmatch
    cases hmatch
  have hread : strptimeYmd (dateDigits d) = .ok (d.year, d.month, d.day) := strptimeYmd_date hy
  unfold parseOcc
  rw [Option.filter_some_pos (by simpa using hnonempty)]
  simp only [strip_occText hroot, hmatch, hexp, hread, hstrike, hnumber, hright, if_neg hn]
  rw [occText, List.take_left, upper_toList hroot]

end TradeEngine
