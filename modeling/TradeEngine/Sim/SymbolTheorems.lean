import TradeEngine.Ledger.Lemmas.Iso
import TradeEngine.Sim.Lemmas.Symbol

/-!
# When a futures symbol is read safely and back

The guess of an unknown root is measured in characters and cut in bytes, and a year is printed with two digits that are
read back through a pivot.
-/

namespace TradeEngine.Sim

open Lib

/-- The text is read without a slice inside a character, and the symbol of the contract it gave is read as the same root
and month. -/
def ReadsBack (symbol : String) : Prop :=
  ∃ r, parseFutureSymbol symbol = some r ∧ ∀ c, r = .ok c → ∃ c', parseFutureSymbol c.symbol = some (.ok c') ∧
    c'.root = c.root ∧ c'.contractMonth = c.contractMonth

/-- A text with no supported root that ends in a month code and digits has a character ending at the byte that is numbered
like the characters before the code; and a four-digit year after a supported root and a month code, if it is one of 1900 to
2100, is one of 1969 to 2068. -/
structure Plain (symbol : String) : Prop where
  boundary : ∀ upper pre ds code, bareSymbol symbol = .ok upper → matchRoot upper = none → Coded upper pre ds code →
    IsCharBoundary upper pre.length
  century : ∀ upper root code ys, bareSymbol symbol = .ok upper → matchRoot upper = some root →
    upper = root.toList ++ code :: ys → (monthFromCode code).isSome = true → ys.length = 4 →
    (∀ c ∈ ys, c.isDigit = true) → 1900 ≤ Nat.ofDigitChars 10 ys 0 → Nat.ofDigitChars 10 ys 0 ≤ 2100 →
    1969 ≤ Nat.ofDigitChars 10 ys 0 ∧ Nat.ofDigitChars 10 ys 0 ≤ 2068

/-! ## The symbol of a contract -/

theorem monthCode_code (cm : ContractMonth) :
    ∃ code ∈ codes, cm.monthCode.toList = [code] ∧ monthFromCode code = some cm.month := by
  have hall : ∀ m < 13, 1 ≤ m → codes.any (fun code =>
      ((["F", "G", "H", "J", "K", "M", "N", "Q", "U", "V", "X", "Z"][m - 1]?).getD "?").toList = [code] ∧
        monthFromCode code = some m) = true := by decide +kernel
  obtain ⟨code, hcode, htext⟩ := List.any_eq_true.1 (hall cm.month (by have := cm.month_mem; omega) cm.month_mem.1)
  exact ⟨code, hcode, of_decide_eq_true htext⟩

theorem codes_alnum {c : Char} (h : c ∈ codes) : isAlnum c = true := by
  have hall : codes.all isAlnum = true := by decide
  exact List.all_eq_true.1 hall c h

theorem isAlnum_of_fixed {w n : Nat} {c : Char} (h : c ∈ fixedDigits w n) : isAlnum c = true := by
  have hall : ∀ k < 10, isAlnum (Nat.digitChar k) = true := by decide
  obtain ⟨k, hk, rfl⟩ := mem_fixedDigits h
  exact hall k hk

/-- A root alone is read as itself. -/
theorem parse_root {root : String} (h : root ∈ candidates) {c : FutureContract} (hc : c.root = root)
    (hm : c.contractMonth = none) :
    ∃ c', parseFutureSymbol c.symbol = some (.ok c') ∧ c'.root = root ∧ c'.contractMonth = none := by
  obtain ⟨spec, hspec⟩ := specForRoot_ok h
  obtain ⟨hne, halnum⟩ := root_alnum h
  have hsymbol : c.symbol = String.ofList root.toList := by
    rw [FutureContract.symbol, hm, String.ofList_toList]
    exact hc
  have hparse := parse_known (bareSymbol_alnum hne halnum) (matchRoot_self h) (List.append_nil _).symm hspec
  rw [hsymbol, hparse]
  exact ⟨_, rfl, rfl, rfl⟩

/-- A root with a month is read as itself, the year through the pivot. -/
theorem parse_month {root : String} (h : root ∈ candidates) {c : FutureContract} {cm : ContractMonth} (hc : c.root = root)
    (hm : c.contractMonth = some cm) :
    ∃ c' cm', parseFutureSymbol c.symbol = some (.ok c') ∧ c'.root = root ∧ c'.contractMonth = some cm' ∧
      cm'.month = cm.month ∧ cm'.year = pivotYear (cm.year % 100).toNat := by
  obtain ⟨spec, hspec⟩ := specForRoot_ok h
  obtain ⟨hne, halnum⟩ := root_alnum h
  obtain ⟨code, hcode, htext, hmonth⟩ := monthCode_code cm
  obtain ⟨y, hy, hlt⟩ : ∃ y : ℕ, cm.year % 100 = y ∧ y < 100 := ⟨(cm.year % 100).toNat, by omega, by omega⟩
  obtain ⟨-, hlow, hhigh⟩ := mod_pivotYear hlt
  have hsymbol : c.symbol = String.ofList (root.toList ++ code :: fixedDigits 2 y) := by
    apply String.toList_injective
    have hyear : toString ((y : ℕ) : ℤ) = toString y := rfl
    rw [FutureContract.symbol, hm]
    dsimp only
    rw [String.toList_append, String.toList_append, htext, hy, hyear, padZeros_toList (by norm_num) (by omega), hc,
      String.toList_ofList, List.append_assoc, List.singleton_append]
  have hchars : ∀ x ∈ root.toList ++ code :: fixedDigits 2 y, isAlnum x = true := by
    intro x hx
    simp only [List.mem_append, List.mem_cons] at hx
    rcases hx with hx | rfl | hx
    · exact halnum x hx
    · exact codes_alnum hcode
    · exact isAlnum_of_fixed hx
  have hread : monthAndYear (String.ofList (root.toList ++ code :: fixedDigits 2 y)) cm.month (fixedDigits 2 y) =
      .ok ⟨pivotYear y, cm.month, by omega, cm.month_mem⟩ := by
    have hdigits := asciiDigits_fixed 1 y
    unfold asciiDigits at hdigits
    rw [Bool.and_eq_true, Bool.not_eq_true'] at hdigits
    have hnil : fixedDigits 2 y ≠ [] := by
      intro hnil
      rw [hnil] at hdigits
      cases hdigits.1
    have hyear : contractYear (String.ofList (root.toList ++ code :: fixedDigits 2 y)) (fixedDigits 2 y) =
        .ok (pivotYear y) := by
      rw [contractYear, length_fixedDigits, ofDigitChars_fixed, Nat.mod_eq_of_lt (by omega)]
      rfl
    rw [monthAndYear, if_neg hnil, if_pos hdigits.2, hyear]
    change newContractMonth (pivotYear y) cm.month = _
    rw [newContractMonth, dif_pos cm.month_mem, dif_pos (by omega)]
  have hparse := parse_known (bareSymbol_alnum (by simp) hchars) (matchRoot_append h hcode (fixedDigits 2 y)) rfl hspec
  rw [hsymbol, hparse, contractMonthOf_code _ hmonth, hread]
  exact ⟨_, _, rfl, rfl, rfl, rfl, by rw [hy, Int.toNat_natCast]⟩

/-! ## The two conditions -/

theorem unknownRoot_isSome {upper : List Char} :
    (unknownRoot upper).isSome = true ↔ ∀ pre ds code, Coded upper pre ds code → IsCharBoundary upper pre.length := by
  have hslice : (unknownRoot upper).isSome = true ↔ IsCharBoundary upper (guessEnd upper) := by
    unfold unknownRoot
    rw [Option.isSome_map]
    split_ifs with hpos
    · exact sliceTo_isSome
    · have hzero : guessEnd upper = 0 := Nat.eq_zero_of_not_pos hpos
      exact ⟨fun _ => ⟨0, by rw [hzero]; rfl⟩, fun _ => rfl⟩
  rw [hslice]
  constructor
  · intro h pre ds code hcoded
    rw [← hcoded.guessEnd]
    exact h
  · intro h
    by_cases hcoded : ∃ pre ds code, Coded upper pre ds code
    · obtain ⟨pre, ds, code, hcoded⟩ := hcoded
      rw [hcoded.guessEnd]
      exact h pre ds code hcoded
    · rw [guessEnd_of_not_coded hcoded]
      exact ⟨upper.length, by rw [List.take_length]⟩

/-- The year of an accepted month comes back exactly inside the pivot's century. -/
theorem pivotYear_eq_iff {y : Int} : pivotYear (y % 100).toNat = y ↔ 1969 ≤ y ∧ y ≤ 2068 := by
  constructor
  · intro h
    obtain ⟨-, hlow, hhigh⟩ := mod_pivotYear (n := (y % 100).toNat) (by omega)
    rw [h] at hlow hhigh
    exact ⟨hlow, hhigh⟩
  · exact pivotYear_mod

/-- A contract with a month is read back exactly when its year is inside the pivot's century. -/
theorem month_read_back {root : String} (h : root ∈ candidates) {c : FutureContract} {cm : ContractMonth}
    (hc : c.root = root) (hm : c.contractMonth = some cm) :
    (∃ c', parseFutureSymbol c.symbol = some (.ok c') ∧ c'.root = c.root ∧ c'.contractMonth = c.contractMonth) ↔
      1969 ≤ cm.year ∧ cm.year ≤ 2068 := by
  obtain ⟨c', cm', hparse, hroot, hmonth, hcm, hyear⟩ := parse_month h hc hm
  rw [← pivotYear_eq_iff, ← hyear]
  constructor
  · rintro ⟨d, hd, -, hdm⟩
    rw [hparse] at hd
    cases hd
    rw [hmonth, hm] at hdm
    exact congrArg ContractMonth.year (Option.some.inj hdm)
  · intro heq
    refine ⟨c', hparse, hroot.trans hc.symm, ?_⟩
    rw [hmonth, hm]
    exact congrArg some (ContractMonth.ext heq hcm)

/-- A text of a known root. -/
theorem readsBack_known {symbol : String} {upper rest : List Char} {root : String}
    (hbare : bareSymbol symbol = .ok upper) (hroot : matchRoot upper = some root) (hrest : upper = root.toList ++ rest) :
    ReadsBack symbol ↔ ∀ code ys, rest = code :: ys → (monthFromCode code).isSome = true → ys.length = 4 →
      (∀ c ∈ ys, c.isDigit = true) → 1900 ≤ Nat.ofDigitChars 10 ys 0 → Nat.ofDigitChars 10 ys 0 ≤ 2100 →
      1969 ≤ Nat.ofDigitChars 10 ys 0 ∧ Nat.ofDigitChars 10 ys 0 ≤ 2068 := by
  have hmem := (matchRoot_some hroot).1
  obtain ⟨spec, hspec⟩ := specForRoot_ok hmem
  obtain ⟨month, hmonth, hcases⟩ := contractMonthOf_some symbol rest
  have hparse := parse_known hbare hroot hrest hspec
  rw [hmonth, Option.map_some] at hparse
  constructor
  · rintro ⟨r, hr, hback⟩ code ys hcode hsome hlen hdigits hlow hhigh
    obtain ⟨n, hn⟩ := Option.isSome_iff_exists.1 hsome
    have hnmem : 1 ≤ n ∧ n ≤ 12 := monthFromCode_mem hn
    have hyears : monthAndYear symbol n ys = .ok ⟨Nat.ofDigitChars 10 ys 0, n, by omega, hnmem⟩ := by
      have hnil : ys ≠ [] := by
        rintro rfl
        cases hlen
      have hyear : contractYear symbol ys = .ok (Nat.ofDigitChars 10 ys 0 : ℤ) := by
        rw [contractYear, hlen]
        rfl
      rw [monthAndYear, if_neg hnil, if_pos (List.all_eq_true.2 hdigits), hyear]
      change newContractMonth _ n = _
      rw [newContractMonth, dif_pos hnmem, dif_pos (by omega)]
    rw [hcode, contractMonthOf_code symbol hn, hyears] at hmonth
    cases hmonth
    rw [hparse] at hr
    cases hr
    obtain ⟨hafter, hbefore⟩ := (month_read_back hmem rfl rfl).1 (hback _ rfl)
    dsimp only at hafter hbefore
    exact ⟨by omega, by omega⟩
  · intro hcentury
    refine ⟨_, hparse, fun c hc => ?_⟩
    obtain ⟨m, hm, rfl⟩ := except_map_eq_ok.1 hc
    rcases hcases m hm with ⟨-, rfl⟩ | ⟨code, ys, n, cm, hrest', hn, hyears, rfl⟩
    · exact parse_root hmem rfl rfl
    · refine (month_read_back hmem rfl rfl).2 ?_
      obtain ⟨-, hdigits, ⟨hlen, hyear⟩ | ⟨hlen, hyear⟩ | ⟨hlen, hyear⟩⟩ := monthAndYear_ok hyears
      · have hlt := ofDigitChars_lt hdigits
        rw [hlen] at hlt
        omega
      · have hlt := ofDigitChars_lt hdigits
        rw [hlen] at hlt
        obtain ⟨-, hlow, hhigh⟩ := mod_pivotYear hlt
        rw [hyear]
        exact ⟨hlow, hhigh⟩
      · have hrange := cm.year_mem
        rw [hyear] at hrange ⊢
        exact_mod_cast hcentury code ys hrest' (by rw [hn]; rfl) hlen hdigits (by exact_mod_cast hrange.1)
          (by exact_mod_cast hrange.2)

/-- A futures symbol is read without a slice inside a character and its contract's symbol is read back exactly when the
guess of its root, if it has none, ends at a character, and its four-digit year, if it has one, is inside the pivot's
century. -/
theorem future_symbol_reads_back_iff (symbol : String) : ReadsBack symbol ↔ Plain symbol := by
  cases hbare : bareSymbol symbol with
  | error e =>
    have hparse : parseFutureSymbol symbol = some (.error e) := by rw [parseFutureSymbol, hbare]
    refine iff_of_true ⟨_, hparse, fun c hc => by cases hc⟩ ⟨?_, ?_⟩
    · intro upper pre ds code h
      rw [hbare] at h
      cases h
    · intro upper root code ys h
      rw [hbare] at h
      cases h
  | ok upper =>
    cases hroot : matchRoot upper with
    | none =>
      have hparse : parseFutureSymbol symbol = unknownRoot upper := by
        rw [parseFutureSymbol, hbare]
        dsimp only
        rw [hroot]
      have hreads : ReadsBack symbol ↔ (unknownRoot upper).isSome = true := by
        constructor
        · rintro ⟨r, hr, -⟩
          rw [← hparse, hr]
          rfl
        · intro h
          obtain ⟨r, hr⟩ := Option.isSome_iff_exists.1 h
          exact ⟨r, hparse.trans hr, fun c hc => absurd hc (unknownRoot_error hr c)⟩
      rw [hreads, unknownRoot_isSome]
      constructor
      · intro h
        refine ⟨?_, ?_⟩
        · intro u pre ds code hu _ hcoded
          rw [hbare] at hu
          cases hu
          exact h pre ds code hcoded
        · intro u root code ys hu hr
          rw [hbare] at hu
          cases hu
          rw [hroot] at hr
          cases hr
      · intro h pre ds code hcoded
        exact h.boundary upper pre ds code hbare hroot hcoded
    | some root =>
      obtain ⟨-, rest, hrest⟩ := matchRoot_some hroot
      rw [readsBack_known hbare hroot hrest]
      constructor
      · intro h
        refine ⟨?_, ?_⟩
        · intro u pre ds code hu hr
          rw [hbare] at hu
          cases hu
          rw [hroot] at hr
          cases hr
        · intro u root' code ys hu hr htext
          rw [hbare] at hu
          cases hu
          rw [hroot] at hr
          cases hr
          exact h code ys (List.append_cancel_left (hrest.symm.trans htext))
      · intro h code ys hcode
        exact h.century upper root code ys hbare hroot (by rw [hrest, hcode])

/-- A root guess that ends inside `é`, and a year of the last century that comes back in this one. -/
theorem future_symbol_cut_and_century : (parseFutureSymbol "éZ6").isNone = true ∧
    ((parseFutureSymbol "NQZ1900").bind Except.toOption).map (fun c => c.symbol) = some "NQZ00" ∧
    ((parseFutureSymbol "NQZ1900").bind Except.toOption).map (fun c => c.contractMonth.map (·.year)) = some (some 1900) ∧
    ((parseFutureSymbol "NQZ00").bind Except.toOption).map (fun c => c.contractMonth.map (·.year)) = some (some 2000) := by
  decide +kernel

end TradeEngine.Sim
