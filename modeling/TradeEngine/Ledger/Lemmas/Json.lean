import TradeEngine.Ledger.Json
import TradeEngine.Ledger.Lemmas.Keys

/-!
# Reading back what is written

Text by text in the order of the grammar: the characters of a string, the numbers, and by induction the
values, each with whatever may follow it.
-/

namespace TradeEngine

namespace Json

/-! ## Escapes -/

theorem hexDigit_hexChar : ∀ d < 16, hexDigit (hexChar d) = some d := by decide

theorem hex4_unicode {n : Nat} (hn : n < 65536) (rest : List Char) :
    ∃ a b c d, unicode n = ['\\', 'u', a, b, c, d] ∧ hex4 (a :: b :: c :: d :: rest) = some (n, rest) := by
  refine ⟨_, _, _, _, rfl, ?_⟩
  simp only [hex4, hexDigit_hexChar _ (Nat.mod_lt _ (by decide : 0 < 16)), Option.bind_eq_bind, Option.bind_some,
    Option.pure_def, Option.some.injEq, Prod.mk.injEq, and_true]
  omega

theorem escape_plain {n : Nat} {s rest : List Char} (h : hex4 s = some (n, rest)) (hn : n < 0xD800 ∨ 0xDC00 ≤ n) :
    escape s = .ok (n, rest) := by
  have hs : ¬(0xD800 ≤ n ∧ n < 0xDC00) := by omega
  simp [escape, h, hs]

theorem escape_pair {v : Nat} {s low rest : List Char} (h : hex4 s = some (0xd800 + v / 1024, '\\' :: 'u' :: low))
    (hl : hex4 low = some (0xdc00 + v % 1024, rest)) (hv : v < 1048576) : escape s = .ok (0x10000 + v, rest) := by
  have hhi : 0xD800 ≤ 0xd800 + v / 1024 ∧ 0xd800 + v / 1024 < 0xDC00 := by omega
  have hlo : 0xDC00 ≤ 0xdc00 + v % 1024 ∧ 0xdc00 + v % 1024 < 0xE000 := by omega
  simp only [escape, h, if_pos hhi, hl, if_pos hlo, Except.ok.injEq, Prod.mk.injEq, and_true]
  omega

theorem charOf_toNat (c : Char) : charOf c.toNat = some c := by
  have h : c.toNat.isValidChar := c.valid
  rw [charOf, dif_pos h]
  rfl

theorem Char.toNat_scalar (c : Char) : c.toNat < 0xD800 ∨ 0xDFFF < c.toNat ∧ c.toNat < 0x110000 := c.valid

theorem chars_short {fuel : Nat} {c e : Char} {rest cs tail : List Char} (hu : e ≠ 'u') (he : shortEscape e = some c)
    (h : chars fuel rest = .ok (cs, tail)) : chars (fuel + 1) ('\\' :: e :: rest) = .ok (c :: cs, tail) := by
  simp [chars, hu, he, h, bind, Except.bind, pure, Except.pure]

theorem chars_unicode {fuel : Nat} {c : Char} {s rest cs tail : List Char} (he : escape s = .ok (c.toNat, rest))
    (h : chars fuel rest = .ok (cs, tail)) : chars (fuel + 1) ('\\' :: 'u' :: s) = .ok (c :: cs, tail) := by
  simp [chars, he, charOf_toNat, h, bind, Except.bind, pure, Except.pure]

theorem chars_plain {fuel : Nat} {c : Char} {rest cs tail : List Char} (hq : c ≠ '"') (hb : c ≠ '\\')
    (hc : ¬ c.toNat < 0x20) (h : chars fuel rest = .ok (cs, tail)) :
    chars (fuel + 1) (c :: rest) = .ok (c :: cs, tail) := by
  simp [chars, hq, hb, hc, h, bind, Except.bind, pure, Except.pure]

/-- The ways a character is written: a short escape, a surrogate pair, one code unit, or itself. -/
theorem writeChar_cases (c : Char) : (∃ e, e ≠ 'u' ∧ shortEscape e = some c ∧ writeChar c = ['\\', e]) ∨
    (0x10000 ≤ c.toNat ∧ writeChar c =
      unicode (0xd800 + (c.toNat - 0x10000) / 1024) ++ unicode (0xdc00 + (c.toNat - 0x10000) % 1024)) ∨
    (c.toNat < 0x10000 ∧ writeChar c = unicode c.toNat) ∨
    (c ≠ '"' ∧ c ≠ '\\' ∧ ¬ c.toNat < 0x20 ∧ writeChar c = [c]) := by
  rcases eq_or_ne c '"' with rfl | hq
  · exact .inl ⟨'"', by decide, rfl, rfl⟩
  rcases eq_or_ne c '\\' with rfl | hb
  · exact .inl ⟨'\\', by decide, rfl, rfl⟩
  rcases eq_or_ne c '\n' with rfl | hn
  · exact .inl ⟨'n', by decide, rfl, rfl⟩
  rcases eq_or_ne c '\r' with rfl | hr
  · exact .inl ⟨'r', by decide, rfl, rfl⟩
  rcases eq_or_ne c '\t' with rfl | ht
  · exact .inl ⟨'t', by decide, rfl, rfl⟩
  rcases eq_or_ne c '\x08' with rfl | hbs
  · exact .inl ⟨'b', by decide, rfl, rfl⟩
  rcases eq_or_ne c '\x0c' with rfl | hff
  · exact .inl ⟨'f', by decide, rfl, rfl⟩
  rw [writeChar, if_neg hq, if_neg hb, if_neg hn, if_neg hr, if_neg ht, if_neg hbs, if_neg hff]
  by_cases hctl : c.toNat < 0x20 ∨ c.toNat > 0x7e
  · rw [if_pos hctl]
    by_cases hbmp : c.toNat ≥ 0x10000
    · rw [if_pos hbmp]
      exact .inr (.inl ⟨hbmp, rfl⟩)
    · rw [if_neg hbmp]
      exact .inr (.inr (.inl ⟨not_le.1 hbmp, rfl⟩))
  · rw [if_neg hctl]
    exact .inr (.inr (.inr ⟨hq, hb, fun h => hctl (.inl h), rfl⟩))

/-- The parser reads back a character it finds written. -/
theorem chars_writeChar {fuel : Nat} {rest cs tail : List Char} (c : Char) (h : chars fuel rest = .ok (cs, tail)) :
    chars (fuel + 1) (writeChar c ++ rest) = .ok (c :: cs, tail) := by
  have hc := Char.toNat_scalar c
  obtain ⟨e, hu, he, hw⟩ | ⟨hbmp, hw⟩ | ⟨hbmp, hw⟩ | ⟨hq, hb, hctl, hw⟩ := writeChar_cases c
  · rw [hw]
    exact chars_short hu he h
  · -- beyond 16 bits: the two halves of the pair come back together
    obtain ⟨a, b, d, e, htext, hhi⟩ := hex4_unicode (n := 0xd800 + (c.toNat - 0x10000) / 1024) (by omega)
      (unicode (0xdc00 + (c.toNat - 0x10000) % 1024) ++ rest)
    obtain ⟨a', b', d', e', htext', hlo⟩ := hex4_unicode (n := 0xdc00 + (c.toNat - 0x10000) % 1024) (by omega) rest
    rw [htext'] at hhi
    simp only [List.cons_append, List.nil_append] at hhi
    simp only [hw, htext, htext', List.cons_append, List.nil_append]
    apply chars_unicode _ h
    have hnat : 0x10000 + (c.toNat - 0x10000) = c.toNat := by omega
    rw [escape_pair hhi hlo (by omega), hnat]
  · obtain ⟨a, b, d, e, htext, hhi⟩ := hex4_unicode (n := c.toNat) hbmp rest
    simp only [hw, htext, List.cons_append, List.nil_append]
    exact chars_unicode (escape_plain hhi (by omega)) h
  · rw [hw]
    exact chars_plain hq hb hctl h

theorem length_writeChar_pos (c : Char) : 0 < (writeChar c).length := by
  obtain ⟨e, -, -, hw⟩ | ⟨-, hw⟩ | ⟨-, hw⟩ | ⟨-, -, -, hw⟩ := writeChar_cases c
  all_goals
    rw [hw]
    simp [unicode]

/-- Every string comes back from its written text, whatever follows it. -/
theorem chars_flatMap {fuel : Nat} (cs : List Char) (rest : List Char) (hf : cs.length < fuel) :
    chars fuel (cs.flatMap writeChar ++ '"' :: rest) = .ok (cs, rest) := by
  induction cs generalizing fuel with
  | nil =>
    cases fuel with
    | zero => simp at hf
    | succ fuel => simp [chars]
  | cons c cs ih =>
    cases fuel with
    | zero => simp at hf
    | succ fuel =>
      have hlt : cs.length < fuel := by simpa using hf
      rw [List.flatMap_cons, List.append_assoc]
      exact chars_writeChar c (ih hlt)

theorem length_le_flatMap (cs : List Char) : cs.length ≤ (cs.flatMap writeChar).length := by
  induction cs with
  | nil => simp
  | cons c cs ih =>
    have hc := length_writeChar_pos c
    simp only [List.flatMap_cons, List.length_append, List.length_cons]
    omega

theorem string_writeStr (t : String) (rest : List Char) :
    ∃ body, writeStr t = '"' :: body ∧ string (body ++ rest) = .ok (t, rest) := by
  refine ⟨t.toList.flatMap writeChar ++ ['"'], rfl, ?_⟩
  have hlen := length_le_flatMap t.toList
  have hchars : chars ((t.toList.flatMap writeChar ++ ['"'] ++ rest).length + 1)
      (t.toList.flatMap writeChar ++ ['"'] ++ rest) = .ok (t.toList, rest) := by
    rw [List.append_assoc]
    apply chars_flatMap
    simp only [List.length_append]
    omega
  rw [string, hchars]
  simp [bind, Except.bind, pure, Except.pure]

/-! ## Numbers -/

/-- What may stand after a value inside a written text. -/
def Ends (rest : List Char) : Prop := ∀ c ∈ rest.head?, c = ',' ∨ c = ']' ∨ c = '}'

def Digits (l : List Char) : Prop := l ≠ [] ∧ ∀ c ∈ l, c.isDigit

/-- The integers of the number grammar: no zero stands before another digit. -/
def IsInteger (text : List Char) : Prop := ∃ sgn digits, (sgn = [] ∨ sgn = ['-']) ∧ Digits digits ∧
  (digits.head? = some '0' → digits = ['0']) ∧ text = sgn ++ digits

def IsFraction (text : List Char) : Prop := text = [] ∨ ∃ digits, Digits digits ∧ text = '.' :: digits

def IsExponent (text : List Char) : Prop := text = [] ∨ ∃ e sgn digits, (e = 'e' ∨ e = 'E') ∧
  (sgn = [] ∨ sgn = ['+'] ∨ sgn = ['-']) ∧ Digits digits ∧ text = e :: sgn ++ digits

/-- The floats of the number grammar, and its three words. -/
def IsFloat (text : List Char) : Prop := text = "NaN".toList ∨ text = "Infinity".toList ∨ text = "-Infinity".toList ∨
  ∃ whole frac exp, IsInteger whole ∧ IsFraction frac ∧ IsExponent exp ∧ ¬(frac = [] ∧ exp = []) ∧
    text = whole ++ frac ++ exp

/-- No digit comes first. -/
def NoDigit (s : List Char) : Prop := ∀ c ∈ s.head?, c.isDigit = false

theorem Ends.noDigit {rest : List Char} (h : Ends rest) : NoDigit rest := by
  intro c hc
  rcases h c hc with rfl | rfl | rfl <;> rfl

theorem takeWhile_digits {l s : List Char} (hl : ∀ c ∈ l, c.isDigit) (hs : NoDigit s) :
    (l ++ s).takeWhile Char.isDigit = l := by
  rw [List.takeWhile_append_of_pos hl]
  cases s with
  | nil => simp
  | cons c s => simp [hs c rfl]

theorem dropWhile_digits {l s : List Char} (hl : ∀ c ∈ l, c.isDigit) (hs : NoDigit s) :
    (l ++ s).dropWhile Char.isDigit = s := by
  rw [List.dropWhile_append_of_pos hl]
  cases s with
  | nil => simp
  | cons c s => simp [hs c rfl]

theorem fraction_append {f s : List Char} (hf : IsFraction f) (hs : NoDigit s) (hp : s.head? ≠ some '.') :
    fraction (f ++ s) = (f, s) := by
  rcases hf with rfl | ⟨digits, ⟨hne, hd⟩, rfl⟩
  · cases s with
    | nil => rfl
    | cons c s =>
      have hc : c ≠ '.' := by simpa using hp
      simp [fraction, hc]
  · obtain ⟨c, l, rfl⟩ := List.exists_cons_of_ne_nil hne
    have ht := takeWhile_digits hd hs
    have hr := dropWhile_digits hd hs
    simp only [List.cons_append] at ht hr
    simp only [List.cons_append, fraction, ht, hr, hd c (by simp), if_true]

theorem sign_append {sgn s : List Char} (hs : sgn = [] ∨ sgn = ['+'] ∨ sgn = ['-']) (hd : Digits s) (t : List Char) :
    sign (sgn ++ s ++ t) = (sgn, s ++ t) := by
  obtain ⟨hne, hd⟩ := hd
  obtain ⟨c, l, rfl⟩ := List.exists_cons_of_ne_nil hne
  have hc : c.isDigit := hd c (by simp)
  rcases hs with rfl | rfl | rfl
  · have hplus : c ≠ '+' := by rintro rfl; revert hc; decide
    have hminus : c ≠ '-' := by rintro rfl; revert hc; decide
    simp [sign, hplus, hminus]
  · rfl
  · rfl

theorem exponent_append {e s : List Char} (he : IsExponent e) (hs : Ends s) : exponent (e ++ s) = (e, s) := by
  rcases he with rfl | ⟨x, sgn, digits, hx, hsgn, hd, rfl⟩
  · cases s with
    | nil => rfl
    | cons c s =>
      have hc : ¬(c = 'e' ∨ c = 'E') := by rcases hs c rfl with rfl | rfl | rfl <;> decide
      simp [exponent, hc]
  · have hsign := sign_append hsgn hd s
    have ht := takeWhile_digits hd.2 hs.noDigit
    have hr := dropWhile_digits hd.2 hs.noDigit
    obtain ⟨c, l, rfl⟩ := List.exists_cons_of_ne_nil hd.1
    simp only [List.cons_append, List.append_assoc] at hsign ht hr
    simp only [List.cons_append, List.append_assoc, exponent, if_pos hx, hsign, ht, hr, hd.2 c (by simp), if_true]

/-- What a number is read as, by its parts. -/
def numberValue (whole frac exp : List Char) : Json :=
  if frac = [] ∧ exp = [] then integer whole else .float (String.ofList (whole ++ frac ++ exp))

theorem IsExponent.noDigit {exp s : List Char} (h : IsExponent exp) (hs : Ends s) :
    NoDigit (exp ++ s) ∧ (exp ++ s).head? ≠ some '.' := by
  rcases h with rfl | ⟨x, sgn, digits, hx, -, -, rfl⟩
  · refine ⟨hs.noDigit, ?_⟩
    intro hp
    rcases hs '.' hp with h | h | h <;> revert h <;> decide
  · rcases hx with rfl | rfl <;> refine ⟨?_, by simp⟩ <;> intro c hc <;> simp at hc <;> subst hc <;> rfl

theorem afterInteger_append {frac exp s : List Char} (whole : List Char) (hf : IsFraction frac) (he : IsExponent exp)
    (hs : Ends s) : afterInteger whole (frac ++ (exp ++ s)) = (numberValue whole frac exp, s) := by
  obtain ⟨hd, hp⟩ := he.noDigit hs
  simp only [afterInteger, fraction_append hf hd hp, exponent_append he hs, numberValue]
  split_ifs <;> rfl

/-- What follows the integer part of a number in its text is no digit. -/
theorem noDigit_parts {frac exp s : List Char} (hf : IsFraction frac) (he : IsExponent exp) (hs : Ends s) :
    NoDigit (frac ++ (exp ++ s)) := by
  rcases hf with rfl | ⟨digits, -, rfl⟩
  · exact (he.noDigit hs).1
  · intro c hc
    simp at hc
    subst hc
    rfl

theorem number_append {whole frac exp s : List Char} (hw : IsInteger whole) (hf : IsFraction frac)
    (he : IsExponent exp) (hs : Ends s) :
    number (whole ++ (frac ++ (exp ++ s))) = .ok (numberValue whole frac exp, s) := by
  have hnd := noDigit_parts hf he hs
  have hafter := fun whole => afterInteger_append whole hf he hs
  obtain ⟨sgn, digits, hsgn, ⟨hne, hd⟩, hzero, rfl⟩ := hw
  have hdigits : ∀ sgn, digitsOf sgn (digits ++ (frac ++ (exp ++ s))) = .ok (numberValue (sgn ++ digits) frac exp, s) := by
    intro sgn
    have ht := takeWhile_digits hd hnd
    have hr := dropWhile_digits hd hnd
    obtain ⟨c, l, rfl⟩ := List.exists_cons_of_ne_nil hne
    by_cases hc : c = '0'
    · subst hc
      have hl : l = [] := by simpa using hzero rfl
      subst hl
      rw [← hafter]
      rfl
    · simp only [List.cons_append] at ht hr
      simp only [List.cons_append, digitsOf, hd c (by simp), if_true, ht, hr, hafter]
  rcases hsgn with rfl | rfl
  · refine Eq.trans ?_ (hdigits [])
    obtain ⟨c, l, rfl⟩ := List.exists_cons_of_ne_nil hne
    have hc : c ≠ '-' := by rintro rfl; have := hd '-' (by simp); revert this; decide
    simp [number, hc]
  · rw [← hdigits]
    rfl

theorem toDigits_head (n : Nat) (h : (Nat.toDigits 10 n).head? = some '0') : Nat.toDigits 10 n = ['0'] := by
  induction n using Nat.strong_induction_on with
  | _ n ih =>
    by_cases hn : n < 10
    · rw [Nat.toDigits_of_lt_base hn] at h ⊢
      simpa using h
    · have hstep := Nat.toDigits_of_base_le (b := 10) (by decide) (by omega : 10 ≤ n)
      have hne : Nat.toDigits 10 (n / 10) ≠ [] := Nat.toDigits_ne_nil
      rw [hstep, List.head?_append_of_ne_nil _ hne] at h
      have hzero : Nat.ofDigitChars 10 (Nat.toDigits 10 (n / 10)) 0 = 0 := by
        rw [ih (n / 10) (by omega) h]
        rfl
      rw [Nat.ofDigitChars_ten_toDigits] at hzero
      omega

theorem digits_toDigits (n : Nat) : Digits (Nat.toDigits 10 n) :=
  ⟨Nat.toDigits_ne_nil, fun _ hc => Nat.isDigit_of_mem_toDigits (by decide) (by decide) hc⟩

theorem intValue_digits {l : List Char} (h : Digits l) : intValue l = Nat.ofDigitChars 10 l 0 := by
  obtain ⟨c, t, rfl⟩ := List.exists_cons_of_ne_nil h.1
  have hc : c ≠ '-' := by
    rintro rfl
    have hminus := h.2 '-' (by simp)
    revert hminus
    decide
  simp [intValue, hc]

theorem isInteger_toString (n : Int) : IsInteger (toString n).toList ∧ intValue (toString n).toList = n := by
  cases n with
  | ofNat n =>
    have htext : (toString (Int.ofNat n)).toList = Nat.toDigits 10 n := Nat.toList_repr
    rw [htext]
    refine ⟨⟨[], _, .inl rfl, digits_toDigits n, toDigits_head n, rfl⟩, ?_⟩
    rw [intValue_digits (digits_toDigits n), Nat.ofDigitChars_ten_toDigits]
    rfl
  | negSucc n =>
    rw [toString_negSucc_toList]
    refine ⟨⟨['-'], _, .inr rfl, digits_toDigits _, toDigits_head _, rfl⟩, ?_⟩
    rw [intValue, Nat.ofDigitChars_ten_toDigits]
    rfl

/-! ## The well-formed values -/

theorem writeItems_eq (items : List Json) : writeItems items = items.map writeJson := by
  induction items with
  | nil => rfl
  | cons v items ih => exact congrArg (writeJson v :: ·) ih

theorem writePairs_eq (pairs : List (String × Json)) : writePairs pairs = pairs.map fun p => (p.1, writeJson p.2) := by
  induction pairs with
  | nil => rfl
  | cons p pairs ih => exact congrArg ((p.1, writeJson p.2) :: ·) ih

mutual

/-- The value with the pairs of its objects, at every depth, in key order. -/
def sorted : Json → Json
  | .arr items => .arr (sortedItems items)
  | .obj pairs => .obj (sortPairs (sortedPairs pairs))
  | v => v

def sortedItems : List Json → List Json
  | [] => []
  | v :: items => v.sorted :: sortedItems items

def sortedPairs : List (String × Json) → List (String × Json)
  | [] => []
  | (k, v) :: pairs => (k, v.sorted) :: sortedPairs pairs

end

theorem sortedItems_eq (items : List Json) : sortedItems items = items.map sorted := by
  induction items with
  | nil => rfl
  | cons v items ih => exact congrArg (v.sorted :: ·) ih

theorem sortedPairs_eq (pairs : List (String × Json)) : sortedPairs pairs = pairs.map fun p => (p.1, p.2.sorted) := by
  induction pairs with
  | nil => rfl
  | cons p pairs ih => exact congrArg ((p.1, p.2.sorted) :: ·) ih

mutual

/-- How deep arrays and objects are nested. -/
def depth : Json → Nat
  | .arr items => depthItems items + 1
  | .obj pairs => depthPairs pairs + 1
  | _ => 0

def depthItems : List Json → Nat
  | [] => 0
  | v :: items => max v.depth (depthItems items)

def depthPairs : List (String × Json) → Nat
  | [] => 0
  | (_, v) :: pairs => max v.depth (depthPairs pairs)

end

theorem depth_le_of_mem_items {items : List Json} : ∀ v ∈ items, v.depth ≤ depthItems items := by
  induction items with
  | nil => simp
  | cons v items ih =>
    intro w hw
    change w.depth ≤ max v.depth (depthItems items)
    rcases List.mem_cons.1 hw with rfl | hw
    · exact le_max_left _ _
    · exact (ih w hw).trans (le_max_right _ _)

theorem depth_le_of_mem_pairs {pairs : List (String × Json)} : ∀ p ∈ pairs, p.2.depth ≤ depthPairs pairs := by
  induction pairs with
  | nil => simp
  | cons p pairs ih =>
    intro q hq
    change q.2.depth ≤ max p.2.depth (depthPairs pairs)
    rcases List.mem_cons.1 hq with rfl | hq
    · exact le_max_left _ _
    · exact (ih q hq).trans (le_max_right _ _)

mutual

/-- Every key of an object once, and number texts of the grammar: an integer's beyond 128 bits and a float's. -/
def WellFormed : Json → Prop
  | .bigInt t => IsInteger t.toList ∧ ¬(-2 ^ 127 ≤ intValue t.toList ∧ intValue t.toList < 2 ^ 127)
  | .float t => IsFloat t.toList
  | .arr items => WellFormedItems items
  | .obj pairs => (pairs.map (·.1)).Nodup ∧ WellFormedPairs pairs
  | _ => True

def WellFormedItems : List Json → Prop
  | [] => True
  | v :: items => v.WellFormed ∧ WellFormedItems items

def WellFormedPairs : List (String × Json) → Prop
  | [] => True
  | (_, v) :: pairs => v.WellFormed ∧ WellFormedPairs pairs

end

theorem WellFormedItems.of_mem {items : List Json} (h : WellFormedItems items) : ∀ v ∈ items, v.WellFormed := by
  induction items with
  | nil => simp
  | cons v items ih =>
    obtain ⟨hv, hitems⟩ := h
    simpa [hv] using ih hitems

theorem WellFormedPairs.of_mem {pairs : List (String × Json)} (h : WellFormedPairs pairs) :
    ∀ p ∈ pairs, p.2.WellFormed := by
  induction pairs with
  | nil => simp
  | cons p pairs ih =>
    obtain ⟨hp, hpairs⟩ := h
    simpa [hp] using ih hpairs

/-- Induction with the hypothesis at every item and at every value of a pair. -/
theorem induction_mem {P : Json → Prop} (null : P .null) (bool : ∀ b, P (.bool b)) (int : ∀ n, P (.int n))
    (bigInt : ∀ t, P (.bigInt t)) (float : ∀ t, P (.float t)) (str : ∀ s, P (.str s))
    (arr : ∀ items, (∀ v ∈ items, P v) → P (.arr items))
    (obj : ∀ pairs : List (String × Json), (∀ p ∈ pairs, P p.2) → P (.obj pairs)) (v : Json) : P v := by
  refine @Json.rec P (fun items => ∀ v ∈ items, P v) (fun pairs => ∀ p ∈ pairs, P p.2) (fun p => P p.2) null bool int
    bigInt float str arr obj ?_ ?_ ?_ ?_ ?_ v
  · simp
  · intro v items hv hitems
    simpa [hv] using hitems
  · simp
  · intro p pairs hp hpairs
    rintro q (_ | ⟨_, hq⟩)
    · exact hp
    · exact hpairs q hq
  · intro k v hv
    exact hv

/-! ## Reading back -/

theorem ws_cons {c : Char} {s : List Char} (hc : isWs c = false) : ws (c :: s) = c :: s := by
  simp [ws, hc]

/-- The first character of a written number. -/
theorem IsInteger.head {whole : List Char} (h : IsInteger whole) : ∃ c l, whole = c :: l ∧
    (c.isDigit ∨ c = '-' ∧ ∃ d t, l = d :: t ∧ d.isDigit) := by
  obtain ⟨sgn, digits, hsgn, ⟨hne, hd⟩, -, rfl⟩ := h
  obtain ⟨c, l, rfl⟩ := List.exists_cons_of_ne_nil hne
  have hc := hd c (by simp)
  rcases hsgn with rfl | rfl
  · exact ⟨c, l, rfl, .inl hc⟩
  · exact ⟨'-', c :: l, rfl, .inr ⟨rfl, c, l, rfl, hc⟩⟩

theorem ne_of_isDigit {c d : Char} (hc : c.isDigit) (hd : d.isDigit = false) : c ≠ d := by
  rintro rfl
  simp [hc] at hd

theorem scalar_number {whole : List Char} (h : IsInteger whole) (t : List Char) :
    scalar (whole ++ t) = number (whole ++ t) := by
  obtain ⟨c, l, rfl, hc | ⟨rfl, d, t', rfl, hd⟩⟩ := h.head
  · simp [scalar, hc, ne_of_isDigit hc (d := 'n') rfl, ne_of_isDigit hc (d := 't') rfl, ne_of_isDigit hc (d := 'f') rfl,
      ne_of_isDigit hc (d := 'N') rfl, ne_of_isDigit hc (d := 'I') rfl, ne_of_isDigit hc (d := '-') rfl]
  · simp [scalar, (ne_of_isDigit hd (d := 'I') rfl).symm]

theorem value_number (fuel depth : Nat) {whole frac exp s : List Char} (hw : IsInteger whole) (hf : IsFraction frac)
    (he : IsExponent exp) (hs : Ends s) :
    value (fuel + 1) depth (whole ++ (frac ++ (exp ++ s))) = .ok (numberValue whole frac exp, s) := by
  rw [← number_append hw hf he hs, ← scalar_number hw]
  obtain ⟨c, l, rfl, hc | ⟨rfl, -⟩⟩ := hw.head
  · exact value_scalar (ne_of_isDigit hc rfl) (ne_of_isDigit hc rfl) (ne_of_isDigit hc rfl)
  · exact value_scalar (by decide) (by decide) (by decide)

/-- What the parser makes of the text of a value, whatever follows it. -/
def Reads (v : Json) : Prop := ∀ fuel depth rest, (writeJson v).length ≤ fuel → depth + v.depth ≤ maxDepth →
  Ends rest → value fuel depth (writeJson v ++ rest) = .ok (v.sorted, rest)

theorem reads_of_succ {v : Json} (hne : writeJson v ≠ []) (h : ∀ fuel depth rest, (writeJson v).length ≤ fuel + 1 →
    depth + v.depth ≤ maxDepth → Ends rest → value (fuel + 1) depth (writeJson v ++ rest) = .ok (v.sorted, rest)) :
    Reads v := by
  intro fuel depth rest hf hd hr
  cases fuel with
  | zero => exact absurd (List.length_eq_zero_iff.1 (Nat.le_zero.1 hf)) hne
  | succ fuel => exact h fuel depth rest hf hd hr

theorem reads_null : Reads .null := by
  refine reads_of_succ (List.cons_ne_nil _ _) ?_
  intro fuel depth rest _ _ _
  exact value_scalar (by decide) (by decide) (by decide)

theorem reads_bool (b : Bool) : Reads (.bool b) := by
  cases b
  all_goals
    refine reads_of_succ (List.cons_ne_nil _ _) ?_
    intro fuel depth rest _ _ _
    exact value_scalar (by decide) (by decide) (by decide)

theorem IsInteger.ne_nil {whole : List Char} (h : IsInteger whole) : whole ≠ [] := by
  obtain ⟨c, l, rfl, -⟩ := h.head
  simp

theorem reads_int (n : I128) : Reads (.int n) := by
  obtain ⟨hi, hv⟩ := isInteger_toString n.1
  refine reads_of_succ hi.ne_nil ?_
  intro fuel depth rest _ _ hr
  have hvalue := value_number fuel depth hi (.inl rfl) (.inl rfl) hr
  have hn := n.2
  rw [← hv] at hn
  simp only [List.nil_append, numberValue, and_self, if_true, integer, dif_pos hn] at hvalue
  change value (fuel + 1) depth ((toString n.1).toList ++ rest) = .ok (.int n, rest)
  rw [hvalue]
  simp only [hv]
  rfl

theorem reads_bigInt {t : String} (h : (Json.bigInt t).WellFormed) : Reads (.bigInt t) := by
  obtain ⟨hi, hbig⟩ := h
  refine reads_of_succ hi.ne_nil ?_
  intro fuel depth rest _ _ hr
  have hvalue := value_number fuel depth hi (.inl rfl) (.inl rfl) hr
  simp only [List.nil_append, numberValue, and_self, if_true, integer, dif_neg hbig, String.ofList_toList] at hvalue
  exact hvalue

theorem reads_float {t : String} (h : (Json.float t).WellFormed) : Reads (.float t) := by
  change IsFloat t.toList at h
  have hne : t.toList ≠ [] := by
    rcases h with h | h | h | ⟨whole, frac, exp, hw, -, -, -, h⟩
    · simp [h]
    · simp [h]
    · simp [h]
    · simpa [h] using fun h => absurd h hw.ne_nil
  refine reads_of_succ hne ?_
  intro fuel depth rest _ _ hr
  change value (fuel + 1) depth (t.toList ++ rest) = .ok (.float t, rest)
  rcases h with h | h | h | ⟨whole, frac, exp, hw, hf, he, hparts, h⟩
  · have ht : t = "NaN" := String.toList_injective h
    subst ht
    exact value_scalar (by decide) (by decide) (by decide)
  · have ht : t = "Infinity" := String.toList_injective h
    subst ht
    exact value_scalar (by decide) (by decide) (by decide)
  · have ht : t = "-Infinity" := String.toList_injective h
    subst ht
    exact value_scalar (by decide) (by decide) (by decide)
  · have hvalue := value_number fuel depth hw hf he hr
    rw [numberValue, if_neg hparts, ← h, String.ofList_toList] at hvalue
    rw [h, List.append_assoc, List.append_assoc, hvalue]

theorem reads_str (s : String) : Reads (.str s) := by
  refine reads_of_succ (List.cons_ne_nil _ _) ?_
  intro fuel depth rest _ _ _
  obtain ⟨body, htext, hstring⟩ := string_writeStr s rest
  change value (fuel + 1) depth (writeStr s ++ rest) = .ok (.str s, rest)
  simp only [htext, List.cons_append, value, hstring, bind, Except.bind, pure, Except.pure]

/-- The text of a well-formed value starts with no blank and no closing bracket. -/
theorem writeJson_head {v : Json} (h : v.WellFormed) :
    ∃ c t, writeJson v = c :: t ∧ isWs c = false ∧ c ≠ ']' := by
  have hnumber : ∀ {whole l : List Char}, IsInteger whole → whole <+: l → ∃ c t, l = c :: t ∧ isWs c = false ∧ c ≠ ']' := by
    rintro whole _ hw ⟨t, rfl⟩
    obtain ⟨c, l, rfl, hc | ⟨rfl, -⟩⟩ := hw.head
    · refine ⟨c, l ++ t, rfl, ?_, ne_of_isDigit hc rfl⟩
      simp [isWs, ne_of_isDigit hc (d := ' ') rfl, ne_of_isDigit hc (d := '\t') rfl,
        ne_of_isDigit hc (d := '\n') rfl, ne_of_isDigit hc (d := '\r') rfl]
    · exact ⟨'-', l ++ t, rfl, rfl, by decide⟩
  cases v with
  | null => exact ⟨'n', _, rfl, rfl, by decide⟩
  | bool b => cases b <;> exact ⟨_, _, rfl, rfl, by decide⟩
  | int n => exact hnumber (isInteger_toString n.1).1 List.prefix_rfl
  | bigInt t => exact hnumber h.1 List.prefix_rfl
  | float t =>
    change IsFloat t.toList at h
    change ∃ c l, t.toList = c :: l ∧ isWs c = false ∧ c ≠ ']'
    rcases h with h | h | h | ⟨whole, frac, exp, hw, -, -, -, h⟩
    · exact ⟨'N', _, h, rfl, by decide⟩
    · exact ⟨'I', _, h, rfl, by decide⟩
    · exact ⟨'-', _, h, rfl, by decide⟩
    · exact hnumber hw (by simp [h])
  | str s => exact ⟨'"', _, rfl, rfl, by decide⟩
  | arr items => exact ⟨'[', _, rfl, rfl, by decide⟩
  | obj pairs => exact ⟨'{', _, rfl, rfl, by decide⟩

theorem commas_cons_cons (a b : List Char) (l : List (List Char)) : commas (a :: b :: l) = a ++ ',' :: commas (b :: l) := by
  simp [commas]

theorem commas_singleton (a : List Char) : commas [a] = a := by
  simp [commas]

theorem array_step {fuel depth : Nat} {v : Json} {acc : List Json} {rest : List Char} (hv : Reads v) (hw : v.WellFormed)
    (hf : (writeJson v).length ≤ fuel) (hd : depth + v.depth ≤ maxDepth) {c : Char} (hc : c = ',' ∨ c = ']') :
    array (fuel + 1) depth acc (writeJson v ++ c :: rest) =
      if c = ',' then array fuel depth (acc ++ [v.sorted]) rest else .ok (.arr (acc ++ [v.sorted]), rest) := by
  have hends : Ends (c :: rest) := by
    intro d hd
    simp only [List.head?_cons, Option.mem_some_iff] at hd
    subst hd
    rcases hc with rfl | rfl <;> simp
  have hread := hv fuel depth (c :: rest) hf hd hends
  obtain ⟨a, t, htext, hws, -⟩ := writeJson_head hw
  rw [htext] at hread
  rw [array, htext, List.cons_append, ws_cons hws, ← List.cons_append, hread]
  rcases hc with rfl | rfl
  · simp [bind, Except.bind, ws_cons (c := ',') rfl]
  · simp [bind, Except.bind, ws_cons (c := ']') rfl, pure, Except.pure]

/-- The run over the items of an array: each is read in its turn. -/
theorem array_commas {items : List Json} (hne : items ≠ []) (hr : ∀ v ∈ items, Reads v)
    (hw : ∀ v ∈ items, v.WellFormed) {depth : Nat} (hd : ∀ v ∈ items, depth + v.depth ≤ maxDepth) {fuel : Nat}
    (hf : (commas (items.map writeJson)).length < fuel) (acc : List Json) (rest : List Char) :
    array fuel depth acc (commas (items.map writeJson) ++ ']' :: rest) =
      .ok (.arr (acc ++ items.map sorted), rest) := by
  induction items generalizing fuel acc with
  | nil => exact absurd rfl hne
  | cons v items ih =>
    cases fuel with
    | zero => simp at hf
    | succ fuel =>
      have hv := hr v (by simp)
      have hwv := hw v (by simp)
      have hdv := hd v (by simp)
      cases items with
      | nil =>
        simp only [List.map_cons, List.map_nil, commas_singleton] at hf ⊢
        rw [array_step hv hwv (by omega) hdv (.inr rfl)]
        simp
      | cons u items =>
        simp only [List.map_cons, commas_cons_cons, List.length_append, List.length_cons] at hf
        rw [List.map_cons, List.map_cons, commas_cons_cons, List.append_assoc, List.cons_append,
          array_step hv hwv (by omega) hdv (.inl rfl), if_pos rfl, ← List.map_cons (f := writeJson),
          ih (by simp) (fun w h => hr w (by simp [h])) (fun w h => hw w (by simp [h])) (fun w h => hd w (by simp [h]))]
        · simp
        · simp only [List.map_cons]
          omega

theorem value_array {fuel depth : Nat} {c : Char} {s : List Char} (hd : depth + 1 ≤ maxDepth) (hws : isWs c = false)
    (hc : c ≠ ']') : value (fuel + 1) depth ('[' :: c :: s) = array fuel (depth + 1) [] (c :: s) := by
  have hdepth : ¬ depth + 1 > maxDepth := by omega
  simp [value, hdepth, ws_cons hws, hc]

theorem value_object {fuel depth : Nat} {c : Char} {s : List Char} (hd : depth + 1 ≤ maxDepth) (hws : isWs c = false)
    (hc : c ≠ '}') : value (fuel + 1) depth ('{' :: c :: s) = object fuel (depth + 1) [] (c :: s) := by
  have hdepth : ¬ depth + 1 > maxDepth := by omega
  simp [value, hdepth, ws_cons hws, hc]

theorem commas_head {a l : List Char} {c : Char} (h : a = c :: l) (ts : List (List Char)) :
    ∃ t, commas (a :: ts) = c :: t := by
  subst h
  cases ts with
  | nil => exact ⟨l, commas_singleton _⟩
  | cons b ts => exact ⟨_, commas_cons_cons _ _ _⟩

theorem reads_arr {items : List Json} (hr : ∀ v ∈ items, Reads v) (hw : (Json.arr items).WellFormed) :
    Reads (.arr items) := by
  refine reads_of_succ (List.cons_ne_nil _ _) ?_
  intro fuel depth rest hf hd _
  change WellFormedItems items at hw
  change depth + (depthItems items + 1) ≤ maxDepth at hd
  change ('[' :: commas (writeItems items) ++ [']']).length ≤ fuel + 1 at hf
  change value (fuel + 1) depth ('[' :: commas (writeItems items) ++ [']'] ++ rest) = .ok (.arr (sortedItems items), rest)
  simp only [writeItems_eq, List.length_append, List.length_cons, List.length_nil] at hf
  simp only [writeItems_eq, sortedItems_eq, List.cons_append, List.append_assoc, List.nil_append]
  cases items with
  | nil =>
    have hdepth : ¬ depth + 1 > maxDepth := by omega
    simp [value, hdepth, commas, ws_cons (c := ']') rfl, pure, Except.pure]
  | cons v items =>
    have hdepth : ∀ w ∈ v :: items, depth + 1 + w.depth ≤ maxDepth := by
      intro w hm
      have hle := depth_le_of_mem_items w hm
      omega
    have hfuel : (commas ((v :: items).map writeJson)).length < fuel := by omega
    have hrun := array_commas (by simp) hr hw.of_mem hdepth hfuel [] rest
    obtain ⟨c, t, htext, hws, hc⟩ := writeJson_head (hw.of_mem v (by simp))
    obtain ⟨t', ht'⟩ := commas_head htext (items.map writeJson)
    rw [List.map_cons, ht', List.cons_append] at hrun ⊢
    rw [value_array (by omega) hws hc, hrun]
    simp

/-! ### Objects -/

theorem sortPairs_map {α β : Type} (f : α → β) (l : List (String × α)) :
    sortPairs (l.map fun p => (p.1, f p.2)) = (sortPairs l).map fun p => (p.1, f p.2) := by
  refine (List.map_insertionSort _ _ _ l ?_).symm
  intro a _ b _
  rfl

theorem sortPairs_perm {α : Type} (l : List (String × α)) : (sortPairs l).Perm l := List.perm_insertionSort _ l

theorem setPair_new {pairs : List (String × Json)} {key : String} (h : key ∉ pairs.map (·.1)) (v : Json) :
    setPair pairs key v = pairs ++ [(key, v)] := by
  rw [setPair, if_neg h]

/-- The text of a pair. -/
def writePair (p : String × Json) : List Char := writeStr p.1 ++ ':' :: writeJson p.2

theorem object_step {fuel depth : Nat} {p : String × Json} {acc : List (String × Json)} {rest : List Char}
    (hv : Reads p.2) (hw : p.2.WellFormed) (hnew : p.1 ∉ acc.map (·.1)) (hf : (writeJson p.2).length ≤ fuel)
    (hd : depth + p.2.depth ≤ maxDepth) {c : Char} (hc : c = ',' ∨ c = '}') :
    object (fuel + 1) depth acc (writePair p ++ c :: rest) =
      if c = ',' then object fuel depth (acc ++ [(p.1, p.2.sorted)]) rest
      else .ok (.obj (acc ++ [(p.1, p.2.sorted)]), rest) := by
  have hends : Ends (c :: rest) := by
    intro d hd
    simp only [List.head?_cons, Option.mem_some_iff] at hd
    subst hd
    rcases hc with rfl | rfl <;> simp
  have hread := hv fuel depth (c :: rest) hf hd hends
  obtain ⟨a, t, htext, hws, -⟩ := writeJson_head hw
  obtain ⟨body, hkey, hstring⟩ := string_writeStr p.1 (':' :: (writeJson p.2 ++ c :: rest))
  rw [htext, List.cons_append] at hread hstring
  rw [writePair, hkey, htext, object, List.append_assoc, List.cons_append, ws_cons (c := '"') rfl]
  simp only [List.cons_append, hstring, bind, Except.bind, ws_cons (c := ':') rfl, ws_cons hws, hread, setPair_new hnew]
  rcases hc with rfl | rfl
  · simp [ws_cons (c := ',') rfl]
  · simp [ws_cons (c := '}') rfl, pure, Except.pure]

/-- The run over the pairs of an object, its keys all new. -/
theorem object_commas {pairs : List (String × Json)} (hne : pairs ≠ []) (hr : ∀ p ∈ pairs, Reads p.2)
    (hw : ∀ p ∈ pairs, p.2.WellFormed) {depth : Nat} (hd : ∀ p ∈ pairs, depth + p.2.depth ≤ maxDepth) {fuel : Nat}
    (hf : (commas (pairs.map writePair)).length < fuel) (acc : List (String × Json))
    (hk : ((acc ++ pairs).map (·.1)).Nodup) (rest : List Char) :
    object fuel depth acc (commas (pairs.map writePair) ++ '}' :: rest) =
      .ok (.obj (acc ++ pairs.map fun p => (p.1, p.2.sorted)), rest) := by
  induction pairs generalizing fuel acc with
  | nil => exact absurd rfl hne
  | cons p pairs ih =>
    cases fuel with
    | zero => simp at hf
    | succ fuel =>
      have hv := hr p (by simp)
      have hwv := hw p (by simp)
      have hdv := hd p (by simp)
      have hlen : (writeJson p.2).length ≤ (writePair p).length := by simp [writePair]; omega
      have hnew : p.1 ∉ acc.map (·.1) := by
        intro hmem
        simp only [List.map_append, List.map_cons] at hk
        exact (List.nodup_append.1 hk).2.2 p.1 hmem p.1 (by simp) rfl
      cases pairs with
      | nil =>
        simp only [List.map_cons, List.map_nil, commas_singleton] at hf ⊢
        rw [object_step hv hwv hnew (by omega) hdv (.inr rfl)]
        simp
      | cons q pairs =>
        simp only [List.map_cons, commas_cons_cons, List.length_append, List.length_cons] at hf
        rw [List.map_cons, List.map_cons, commas_cons_cons, List.append_assoc, List.cons_append,
          object_step hv hwv hnew (by omega) hdv (.inl rfl), if_pos rfl, ← List.map_cons (f := writePair),
          ih (by simp) (fun w h => hr w (by simp [h])) (fun w h => hw w (by simp [h])) (fun w h => hd w (by simp [h]))]
        · simp
        · simp only [List.map_cons]
          omega
        · simpa using hk

theorem reads_obj {pairs : List (String × Json)} (hr : ∀ p ∈ pairs, Reads p.2) (hw : (Json.obj pairs).WellFormed) :
    Reads (.obj pairs) := by
  refine reads_of_succ (List.cons_ne_nil _ _) ?_
  intro fuel depth rest hf hd _
  change (pairs.map (·.1)).Nodup ∧ WellFormedPairs pairs at hw
  change depth + (depthPairs pairs + 1) ≤ maxDepth at hd
  have htext : (sortPairs (writePairs pairs)).map (fun p => writeStr p.1 ++ ':' :: p.2) =
      (sortPairs pairs).map writePair := by
    rw [writePairs_eq, sortPairs_map, List.map_map]
    rfl
  have hperm := sortPairs_perm pairs
  have hmem : ∀ p ∈ sortPairs pairs, p ∈ pairs := fun p hp => hperm.mem_iff.1 hp
  have hkeys : ((sortPairs pairs).map (·.1)).Nodup := (hperm.map _).nodup_iff.2 hw.1
  change ('{' :: commas ((sortPairs (writePairs pairs)).map fun p => writeStr p.1 ++ ':' :: p.2) ++ ['}']).length ≤
    fuel + 1 at hf
  change value (fuel + 1) depth ('{' :: commas ((sortPairs (writePairs pairs)).map fun p => writeStr p.1 ++ ':' :: p.2) ++
    ['}'] ++ rest) = .ok (.obj (sortPairs (sortedPairs pairs)), rest)
  simp only [htext, List.length_append, List.length_cons, List.length_nil] at hf
  simp only [htext, sortedPairs_eq, sortPairs_map, List.cons_append, List.append_assoc, List.nil_append]
  generalize sortPairs pairs = l at hf hmem hkeys
  cases l with
  | nil =>
    have hdepth : ¬ depth + 1 > maxDepth := by omega
    simp [value, hdepth, commas, ws_cons (c := '}') rfl, pure, Except.pure]
  | cons p l =>
    have hdepth : ∀ q ∈ p :: l, depth + 1 + q.2.depth ≤ maxDepth := by
      intro q hq
      have hle := depth_le_of_mem_pairs q (hmem q hq)
      omega
    have hfuel : (commas ((p :: l).map writePair)).length < fuel := by omega
    have hrun := object_commas (by simp) (fun q hq => hr q (hmem q hq)) (fun q hq => hw.2.of_mem q (hmem q hq)) hdepth
      hfuel [] (by simpa using hkeys) rest
    obtain ⟨t', ht'⟩ := commas_head (show writePair p = '"' :: _ from rfl) (l.map writePair)
    rw [List.map_cons, ht', List.cons_append] at hrun ⊢
    rw [value_object (by omega) rfl (by decide), hrun]
    simp

theorem reads {v : Json} (hw : v.WellFormed) : Reads v := by
  induction v using induction_mem with
  | null => exact reads_null
  | bool b => exact reads_bool b
  | int n => exact reads_int n
  | bigInt t => exact reads_bigInt hw
  | float t => exact reads_float hw
  | str s => exact reads_str s
  | arr items ih =>
    refine reads_arr (fun v hv => ih v hv ?_) hw
    rw [WellFormed] at hw
    exact hw.of_mem v hv
  | obj pairs ih =>
    refine reads_obj (fun p hp => ih p hp ?_) hw
    rw [WellFormed] at hw
    exact hw.2.of_mem p hp

end Json

end TradeEngine
