import TradeEngine.Lib.Except
import TradeEngine.Options.Lemmas.Occ
import TradeEngine.Sim.Symbol

/-!
# Where a symbol is sliced and what it is read as
-/

namespace TradeEngine.Sim

open Lib

/-! ## Slices -/

/-- `str::is_char_boundary`: the first bytes are whole characters. -/
def IsCharBoundary (s : List Char) (n : Nat) : Prop := ∃ k, byteLen (s.take k) = n

@[simp] theorem byteLen_nil : byteLen [] = 0 := rfl

@[simp] theorem byteLen_cons (c : Char) (s : List Char) : byteLen (c :: s) = c.utf8Size + byteLen s := by simp [byteLen]

theorem sliceTo_isSome {s : List Char} {n : Nat} : (sliceTo s n).isSome = true ↔ IsCharBoundary s n := by
  induction s generalizing n with
  | nil =>
    cases n with
    | zero => simp [sliceTo, IsCharBoundary]
    | succ n => simp [sliceTo, IsCharBoundary]
  | cons c s ih =>
    have hc := c.utf8Size_pos
    cases n with
    | zero =>
      rw [sliceTo]
      exact ⟨fun _ => ⟨0, rfl⟩, fun _ => rfl⟩
    | succ n =>
      have hsplit : IsCharBoundary (c :: s) (n + 1) ↔ ∃ k, c.utf8Size + byteLen (s.take k) = n + 1 := by
        constructor
        · rintro ⟨k, hk⟩
          cases k with
          | zero => simp at hk
          | succ k => exact ⟨k, by simpa using hk⟩
        · rintro ⟨k, hk⟩
          exact ⟨k + 1, by simpa using hk⟩
      rw [sliceTo, hsplit]
      split_ifs with hle
      · rw [Option.isSome_map, ih]
        constructor
        · rintro ⟨k, hk⟩
          exact ⟨k, by omega⟩
        · rintro ⟨k, hk⟩
          exact ⟨k, by omega⟩
      · constructor
        · intro h
          cases h
        · rintro ⟨k, hk⟩
          omega

theorem sliceFrom_append (a b : List Char) : sliceFrom (a ++ b) (byteLen a) = some b := by
  induction a with
  | nil => cases b <;> rfl
  | cons c a ih =>
    have hc := c.utf8Size_pos
    obtain ⟨n, hn⟩ : ∃ n, byteLen (c :: a) = n + 1 := ⟨byteLen (c :: a) - 1, by simp only [byteLen_cons]; omega⟩
    have hrest : n + 1 - c.utf8Size = byteLen a := by
      rw [← hn, byteLen_cons]
      omega
    rw [hn, List.cons_append, sliceFrom, if_pos (by simp only [byteLen_cons] at hn; omega), hrest, ih]

/-! ## Codes -/

theorem eq_digitChar {c : Char} (h : c.isDigit = true) : ∃ k < 10, c = Nat.digitChar k := by
  obtain ⟨hlo, hhi⟩ := Char.isDigit_iff_toNat.1 h
  have hall : ∀ k < 10, Char.ofNat (48 + k) = Nat.digitChar k := by decide
  have hlo' : 48 ≤ c.toNat := hlo
  have hhi' : c.toNat ≤ 57 := hhi
  refine ⟨c.toNat - 48, by omega, ?_⟩
  rw [← hall _ (by omega), Nat.add_sub_cancel' hlo', Char.ofNat_toNat]

/-- A digit is no month code. -/
theorem not_isDigit_of_code {c : Char} (h : (monthFromCode c).isSome = true) : c.isDigit = false := by
  have hall : ∀ k < 10, monthFromCode (Nat.digitChar k) = none := by decide
  by_contra hd
  obtain ⟨k, hk, rfl⟩ := eq_digitChar (Bool.not_eq_false _ ▸ hd)
  rw [hall k hk] at h
  cases h

/-- A month code and digits at the end of a text. -/
structure Coded (upper pre ds : List Char) (code : Char) : Prop where
  text : upper = pre ++ code :: ds
  code : (monthFromCode code).isSome = true
  digits : ∀ c ∈ ds, c.isDigit = true
  nonempty : ds ≠ []

theorem trailing_digits {pre ds : List Char} {code : Char} (hcode : code.isDigit = false)
    (hds : ∀ c ∈ ds, c.isDigit = true) : (pre ++ code :: ds).reverse.takeWhile Char.isDigit = ds.reverse := by
  have hall : ∀ c ∈ ds.reverse, c.isDigit = true := fun c hc => hds c (List.mem_reverse.1 hc)
  rw [List.reverse_append, List.reverse_cons, List.append_assoc, List.takeWhile_append_of_pos hall]
  simp [hcode]

/-- The guess ends right before the month code, counted in characters. -/
theorem Coded.guessEnd {upper pre ds : List Char} {code : Char} (h : Coded upper pre ds code) :
    guessEnd upper = pre.length := by
  have hpos : 0 < ds.length := List.length_pos_iff.2 h.nonempty
  have hlen : upper.length = pre.length + 1 + ds.length := by
    rw [h.text, List.length_append, List.length_cons]
    omega
  have hi : upper.length - (upper.reverse.takeWhile Char.isDigit).length = pre.length + 1 := by
    rw [hlen, h.text, trailing_digits (not_isDigit_of_code h.code) h.digits, List.length_reverse]
    omega
  have hget : upper[pre.length]? = some code := by simp [h.text]
  have hif : 0 < pre.length + 1 ∧ pre.length + 1 < upper.length ∧
      ((upper[pre.length + 1 - 1]?).bind monthFromCode).isSome = true := by
    refine ⟨Nat.succ_pos _, by omega, ?_⟩
    rw [Nat.add_sub_cancel, hget]
    exact h.code
  rw [Sim.guessEnd, hi, if_pos hif, Nat.add_sub_cancel]

/-- Without a month code and digits at the end the guess is the whole text. -/
theorem guessEnd_of_not_coded {upper : List Char} (h : ¬ ∃ pre ds code, Coded upper pre ds code) :
    guessEnd upper = byteLen upper := by
  rw [guessEnd]
  split_ifs with hif
  · exfalso
    obtain ⟨hpos, hlt, hcode⟩ := hif
    generalize hds : upper.reverse.takeWhile Char.isDigit = ds at *
    have hsplit := List.takeWhile_append_dropWhile (p := Char.isDigit) (l := upper.reverse)
    rw [hds] at hsplit
    have htext : upper = (upper.reverse.dropWhile Char.isDigit).reverse ++ ds.reverse := by
      rw [← List.reverse_append, hsplit, List.reverse_reverse]
    have hdigits : ∀ c ∈ ds.reverse, c.isDigit = true := by
      intro c hc
      rw [← hds] at hc
      exact List.mem_takeWhile_imp (List.mem_reverse.1 hc)
    generalize (upper.reverse.dropWhile Char.isDigit).reverse = front at htext
    rcases List.eq_nil_or_concat front with rfl | ⟨pre, code, rfl⟩
    · rw [htext] at hpos
      simp at hpos
    · rw [List.concat_eq_append, List.append_assoc, List.singleton_append] at htext
      refine h ⟨pre, ds.reverse, code, htext, ?_, hdigits, ?_⟩
      · have hindex : upper.length - ds.length - 1 = pre.length := by
          rw [htext, List.length_append, List.length_cons, List.length_reverse]
          omega
        rw [hindex, htext] at hcode
        simpa using hcode
      · intro hnil
        rw [List.reverse_eq_nil_iff.1 hnil] at hlt
        simp at hlt
  · rfl

/-! ## Texts of letters and digits -/

theorem bareSymbol_alnum {l : List Char} (hne : l ≠ []) (hl : ∀ c ∈ l, isAlnum c = true) :
    bareSymbol (String.ofList l) = .ok l := by
  have hspace : ∀ c ∈ l, isWhitespace c = false := by
    intro c hc
    have := isAlnum_iff.1 (hl c hc)
    simp only [isWhitespace, Bool.or_eq_false_iff, Bool.and_eq_false_iff, decide_eq_false_iff_not, beq_eq_false_iff_ne]
    omega
  have htrim : trim l = l := by
    have hnil : ∀ c ∈ ([] : List Char), isWhitespace c = true := by simp
    simpa using trim_eq hnil hnil hspace
  have hnot : ∀ d, isAlnum d = false → ¬ l.contains d = true := by
    intro d hd hmem
    rw [hl d (List.contains_iff_mem.1 hmem)] at hd
    cases hd
  have hupper : asciiUpper l = l := by
    have hself : ∀ c ∈ l, c.toUpper = id c := fun c hc => toUpper_of_isAlnum (hl c hc)
    rw [asciiUpper, List.map_congr_left hself, List.map_id]
  have hslash : stripSlash (String.ofList l) l = .ok l := by
    cases l with
    | nil => rfl
    | cons c r =>
      have hc : c ≠ '/' := by
        rintro rfl
        exact absurd (hl '/' (by simp)) (by decide)
      unfold stripSlash
      split
      · rename_i heq
        exact absurd (List.cons.inj heq).1 hc
      · rename_i heq
        exact absurd (List.cons.inj heq).1 hc
      · rename_i heq
        exact absurd (List.cons.inj heq).1 hc
      · rfl
  rw [bareSymbol, String.toList_ofList, htrim, if_neg hne, hslash]
  change (if _ then _ else _ : R (List Char)) = _
  rw [if_neg, hupper]
  · rfl
  · simp only [Bool.or_eq_true, not_or]
    exact ⟨⟨hnot '/' (by decide), hnot ' ' (by decide)⟩, hnot '\t' (by decide)⟩

/-! ## Roots -/

theorem matchRoot_some {upper : List Char} {root : String} (h : matchRoot upper = some root) :
    root ∈ candidates ∧ ∃ rest, upper = root.toList ++ rest := by
  refine ⟨List.mem_of_find?_eq_some h, ?_⟩
  have hpre := List.find?_some h
  obtain ⟨rest, hrest⟩ := List.isPrefixOf_iff_prefix.1 hpre
  exact ⟨rest, hrest.symm⟩

theorem unknownRoot_error {upper : List Char} {r : R FutureContract} (h : unknownRoot upper = some r) (c : FutureContract) :
    r ≠ .ok c := by
  unfold unknownRoot at h
  obtain ⟨g, -, rfl⟩ := Option.map_eq_some_iff.1 h
  simp

theorem root_alnum {root : String} (h : root ∈ candidates) : root.toList ≠ [] ∧ ∀ c ∈ root.toList, isAlnum c = true := by
  have hall : candidates.all (fun r => r.toList ≠ [] && r.toList.all isAlnum) = true := by decide
  simpa using List.all_eq_true.1 hall root h

theorem specForRoot_ok {root : String} (h : root ∈ candidates) : ∃ spec, specForRoot root = .ok spec := by
  have hall : ∀ r ∈ candidates, (specForRoot r).toOption.isSome = true := by decide
  obtain ⟨spec, hspec⟩ := Option.isSome_iff_exists.1 (hall root h)
  exact ⟨spec, toOption_eq_some.1 hspec⟩

/-- The month codes. -/
def codes : List Char := ['F', 'G', 'H', 'J', 'K', 'M', 'N', 'Q', 'U', 'V', 'X', 'Z']

theorem isPrefixOf_append_left {a l r : List Char} (h : a.length ≤ l.length) : a.isPrefixOf (l ++ r) = a.isPrefixOf l := by
  rw [Bool.eq_iff_iff, List.isPrefixOf_iff_prefix, List.isPrefixOf_iff_prefix]
  constructor
  · intro hpre
    exact List.prefix_of_prefix_length_le hpre (List.prefix_append l r) h
  · intro hpre
    exact hpre.trans (List.prefix_append l r)

/-- A root followed by a month code is read as that root: no other root starts there. -/
theorem matchRoot_append {root : String} {code : Char} (hroot : root ∈ candidates) (hcode : code ∈ codes) (ys : List Char) :
    matchRoot (root.toList ++ code :: ys) = some root := by
  have hall : ∀ r ∈ candidates, codes.all (fun c => matchRoot (r.toList ++ [c]) = some r) = true := by decide
  have hone : matchRoot (root.toList ++ [code]) = some root := by
    simpa using List.all_eq_true.1 (hall root hroot) code hcode
  have hlen : ∀ r ∈ candidates, ∀ a ∈ candidates, a.toList.length ≤ (r.toList ++ ['F']).length := by decide
  have hsame : matchRoot ((root.toList ++ [code]) ++ ys) = matchRoot (root.toList ++ [code]) := by
    unfold matchRoot
    refine List.find?_congr fun a ha => isPrefixOf_append_left ?_
    simpa using hlen root hroot a ha
  have htext : root.toList ++ code :: ys = (root.toList ++ [code]) ++ ys := by simp
  rw [htext, hsame, hone]

theorem matchRoot_self {root : String} (h : root ∈ candidates) : matchRoot root.toList = some root := by
  have hall : ∀ r ∈ candidates, matchRoot r.toList = some r := by decide
  exact hall root h

/-- What is read after a known root. -/
theorem parse_known {symbol : String} {upper rest : List Char} {root : String} {spec : FutureSpec}
    (hbare : bareSymbol symbol = .ok upper) (hroot : matchRoot upper = some root) (hrest : upper = root.toList ++ rest)
    (hspec : specForRoot root = .ok spec) :
    parseFutureSymbol symbol = (contractMonthOf symbol rest).map fun month => month.map fun m =>
      ⟨root, m, spec.tickSize, spec.pointValue⟩ := by
  have hslice : sliceFrom upper (byteLen root.toList) = some rest := by
    rw [hrest]
    exact sliceFrom_append _ _
  rw [parseFutureSymbol, hbare]
  dsimp only
  rw [hroot]
  dsimp only
  rw [hslice, Option.bind_some, hspec]

/-- The month and the year after a month code; nothing there is sliced inside a character. -/
theorem contractMonthOf_code (symbol : String) {code : Char} {month : Nat} (h : monthFromCode code = some month)
    (ys : List Char) : contractMonthOf symbol (code :: ys) = some ((monthAndYear symbol month ys).map some) := by
  have hslice : sliceFrom (code :: ys) code.utf8Size = some ys := by simpa using sliceFrom_append [code] ys
  rw [contractMonthOf, h]
  dsimp only
  rw [hslice, Option.map_some]

theorem contractMonthOf_some (symbol : String) (rest : List Char) :
    ∃ month, contractMonthOf symbol rest = some month ∧ ∀ m, month = .ok m → (rest = [] ∧ m = none) ∨
      ∃ code ys n cm, rest = code :: ys ∧ monthFromCode code = some n ∧ monthAndYear symbol n ys = .ok cm ∧ m = some cm := by
  cases rest with
  | nil =>
    refine ⟨.ok none, rfl, fun m hm => ?_⟩
    cases hm
    exact .inl ⟨rfl, rfl⟩
  | cons code ys =>
    cases hcode : monthFromCode code with
    | none =>
      refine ⟨_, by rw [contractMonthOf, hcode], fun m hm => ?_⟩
      cases hm
    | some n =>
      refine ⟨_, contractMonthOf_code symbol hcode ys, fun m hm => ?_⟩
      obtain ⟨cm, hcm, rfl⟩ := except_map_eq_ok.1 hm
      exact .inr ⟨code, ys, n, cm, rfl, hcode, hcm, rfl⟩

/-! ## Years -/

theorem monthFromCode_mem {code : Char} {n : Nat} (h : monthFromCode code = some n) : 1 ≤ n ∧ n ≤ 12 := by
  obtain ⟨i, hi, rfl⟩ := Option.map_eq_some_iff.1 h
  have hlt := List.idxOf?_eq_some_iff.1 hi
  obtain ⟨hlen, -⟩ := hlt
  simp only [List.length_cons, List.length_nil] at hlen
  omega

theorem newContractMonth_ok {year : Int} {month : Nat} {cm : ContractMonth} (h : newContractMonth year month = .ok cm) :
    cm.year = year ∧ cm.month = month ∧ 1900 ≤ year ∧ year ≤ 2100 := by
  unfold newContractMonth at h
  split_ifs at h with hm hy
  · cases h
    exact ⟨rfl, rfl, hy⟩
  · cases h
  · cases h

/-- One, two or four digits and the year they are read as. -/
theorem monthAndYear_ok {symbol : String} {month : Nat} {ys : List Char} {cm : ContractMonth}
    (h : monthAndYear symbol month ys = .ok cm) : cm.month = month ∧ (∀ c ∈ ys, c.isDigit = true) ∧
      ((ys.length = 1 ∧ cm.year = 2020 + Nat.ofDigitChars 10 ys 0) ∨
        (ys.length = 2 ∧ cm.year = pivotYear (Nat.ofDigitChars 10 ys 0)) ∨
        (ys.length = 4 ∧ cm.year = Nat.ofDigitChars 10 ys 0)) := by
  unfold monthAndYear at h
  dsimp only at h
  split_ifs at h with hnil hdigits
  · cases h
  · obtain ⟨year, hyear, h⟩ := bind_eq_ok.1 h
    obtain ⟨hcy, hcm, -⟩ := newContractMonth_ok h
    refine ⟨hcm, List.all_eq_true.1 hdigits, ?_⟩
    rw [hcy]
    unfold contractYear at hyear
    dsimp only at hyear
    split at hyear
    · rename_i hlen
      cases hyear
      exact .inl ⟨hlen, rfl⟩
    · rename_i hlen
      cases hyear
      exact .inr (.inl ⟨hlen, rfl⟩)
    · rename_i hlen
      cases hyear
      exact .inr (.inr ⟨hlen, rfl⟩)
    · cases hyear
  · cases h

theorem ofDigitChars_lt {ys : List Char} (h : ∀ c ∈ ys, c.isDigit = true) : Nat.ofDigitChars 10 ys 0 < 10 ^ ys.length := by
  induction ys using List.reverseRecOn with
  | nil => simp
  | append_singleton ys c ih =>
    obtain ⟨k, hk, rfl⟩ := eq_digitChar (h c (by simp))
    have hys := ih fun d hd => h d (by simp [hd])
    rw [Nat.ofDigitChars_append, Nat.ofDigitChars_cons_digitChar_of_lt_ten hk, Nat.ofDigitChars_nil, List.length_append,
      List.length_singleton, pow_succ]
    omega

end TradeEngine.Sim
