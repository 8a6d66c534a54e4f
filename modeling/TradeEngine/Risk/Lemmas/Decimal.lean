import TradeEngine.Risk.Decimal

/-!
# Decimal literals

The grammar of the texts, that scanning finds exactly its literals and their parts, and that a literal whose scale
fits is refused or read exactly.
-/

namespace TradeEngine.Risk

open Lib

/-! ## The grammar -/

/-- Digits, a single underscore between any two. -/
inductive Numeral : List Char → Prop
  | digit {c : Char} (hc : c.isDigit = true) : Numeral [c]
  | cons {c : Char} {l : List Char} (hc : c.isDigit = true) (h : Numeral l) : Numeral (c :: l)
  | under {c : Char} {l : List Char} (hc : c.isDigit = true) (h : Numeral l) : Numeral (c :: '_' :: l)

inductive SignText : List Char → Bool → Prop
  | none : SignText [] false
  | plus : SignText ['+'] false
  | minus : SignText ['-'] true

/-- Digits with an optional point, digits on at least one side of it. -/
inductive MantissaText : List Char → List Char → List Char → Prop
  | whole {i : List Char} (hi : Numeral i) : MantissaText i i []
  | point {i : List Char} (hi : Numeral i) : MantissaText (i ++ ['.']) i []
  | frac {f : List Char} (hf : Numeral f) : MantissaText ('.' :: f) [] f
  | both {i f : List Char} (hi : Numeral i) (hf : Numeral f) : MantissaText (i ++ '.' :: f) i f

inductive ExponentText : List Char → Option (Bool × List Char) → Prop
  | none : ExponentText [] none
  | some {e : Char} {s ds : List Char} {neg : Bool} (he : e = 'e' ∨ e = 'E') (hs : SignText s neg) (hd : Numeral ds) :
    ExponentText (e :: (s ++ ds)) (some (neg, ds))

/-- A decimal literal in surrounding whitespace, and its parts. -/
def Literal (text : List Char) (neg : Bool) (int frac : List Char) (exp : Option (Bool × List Char)) : Prop :=
  ∃ before s m e after, text = before ++ (s ++ m ++ e) ++ after ∧ (∀ c ∈ before, isWhitespace c = true) ∧
    (∀ c ∈ after, isWhitespace c = true) ∧ SignText s neg ∧ MantissaText m int frac ∧ ExponentText e exp

/-- The exponent a literal writes. -/
def exponentValue : Option (Bool × List Char) → Int
  | none => 0
  | some (eneg, edigits) => if eneg then -digitsValue edigits else digitsValue edigits

/-- The digits behind the point. -/
def places (frac : List Char) : Nat := (frac.filter (· ≠ '_')).length

/-- The number a literal denotes. -/
def literalValue (neg : Bool) (int frac : List Char) (exp : Option (Bool × List Char)) : ℚ :=
  (if neg then -1 else 1) * (digitsValue (int ++ frac) * 10 ^ (exponentValue exp - places frac))

/-! ## Digits -/

theorem Numeral.ne_nil {l : List Char} (h : Numeral l) : l ≠ [] := by
  cases h <;> simp

theorem Numeral.chars {l : List Char} (h : Numeral l) : ∀ c ∈ l, c.isDigit = true ∨ c = '_' := by
  induction h with
  | digit hc => simp [hc]
  | cons hc _ ih =>
    intro c hmem
    rcases List.mem_cons.1 hmem with rfl | hmem
    · exact .inl hc
    · exact ih c hmem
  | under hc _ ih =>
    intro c hmem
    rcases List.mem_cons.1 hmem with rfl | hmem
    · exact .inl hc
    · rcases List.mem_cons.1 hmem with rfl | hmem
      · exact .inr rfl
      · exact ih c hmem

theorem isDigit_ne_under {c : Char} (h : c.isDigit = true) : c ≠ '_' := by
  rintro rfl
  cases h

/-- What the check lets through is a numeral: past a digit comes the end, an underscore and a digit, or a digit. -/
theorem numeral_of_check : ∀ {l : List Char}, l ≠ [] → l.head? ≠ some '_' → l.getLast? ≠ some '_' → doubled l = false →
    (∀ c ∈ l, c.isDigit = true ∨ c = '_') → Numeral l
  | [], hne, _, _, _, _ => absurd rfl hne
  | [c], _, hhead, _, _, hall => .digit ((hall c (by simp)).resolve_right fun h => hhead (by simp [h]))
  | c :: d :: l, _, hhead, hlast, hdoubled, hall => by
    have hc : c.isDigit = true := (hall c (by simp)).resolve_right fun h => hhead (by simp [h])
    rw [doubled, Bool.or_eq_false_iff] at hdoubled
    rw [List.getLast?_cons_cons] at hlast
    by_cases hd : d = '_'
    · subst hd
      cases l with
      | nil => simp at hlast
      | cons x l =>
        rw [List.getLast?_cons_cons] at hlast
        rw [doubled, Bool.or_eq_false_iff] at hdoubled
        have hx : (x :: l).head? ≠ some '_' := by simpa using hdoubled.2.1
        exact .under hc (numeral_of_check (by simp) hx hlast hdoubled.2.2 fun y hy => hall y (by simp [List.mem_cons.1 hy]))
    · exact .cons hc (numeral_of_check (by simp) (by simpa using hd) hlast hdoubled.2 fun y hy => hall y (by simp [List.mem_cons.1 hy]))

theorem Numeral.check {l : List Char} (h : Numeral l) :
    l.head? ≠ some '_' ∧ l.getLast? ≠ some '_' ∧ doubled l = false := by
  induction h with
  | @digit c hc =>
    have hne := isDigit_ne_under hc
    simp [doubled, hne]
  | @cons c l hc h ih =>
    have hne := isDigit_ne_under hc
    obtain ⟨x, l', rfl⟩ := List.exists_cons_of_ne_nil h.ne_nil
    refine ⟨by simpa using hne, by rw [List.getLast?_cons_cons]; exact ih.2.1, ?_⟩
    rw [doubled, ih.2.2]
    simp [hne]
  | @under c l hc h ih =>
    have hne := isDigit_ne_under hc
    obtain ⟨x, l', rfl⟩ := List.exists_cons_of_ne_nil h.ne_nil
    refine ⟨by simpa using hne, by rw [List.getLast?_cons_cons, List.getLast?_cons_cons]; exact ih.2.1, ?_⟩
    rw [doubled, doubled, ih.2.2]
    have hx : x ≠ '_' := by simpa using ih.1
    simp [hne, hx]

theorem digitsOk_iff {l : List Char} : digitsOk l = true ↔ Numeral l := by
  unfold digitsOk
  constructor
  · intro h
    split_ifs at h with hbad
    simp only [Bool.or_eq_true, not_or, List.isEmpty_iff, beq_iff_eq] at hbad
    apply numeral_of_check hbad.1.1.1 hbad.1.1.2 hbad.1.2 (by simpa using hbad.2)
    simpa using h
  · intro h
    obtain ⟨hhead, hlast, hdoubled⟩ := h.check
    rw [if_neg (by simp [h.ne_nil, hhead, hlast, hdoubled])]
    simpa using h.chars

/-! ## Characters -/

theorem isDigit_iff {c : Char} : c.isDigit = true ↔ 48 ≤ c.toNat ∧ c.toNat ≤ 57 := by
  simp only [Char.isDigit, Bool.and_eq_true, decide_eq_true_eq]
  exact Iff.rfl

theorem toLower_cases (c : Char) :
    c.toLower = c ∨ (65 ≤ c.toNat ∧ c.toNat ≤ 90 ∧ c.toLower.toNat = c.toNat + 32) := by
  unfold Char.toLower
  split
  · rename_i h
    right
    have hle : 65 ≤ c.toNat ∧ c.toNat ≤ 90 := h
    refine ⟨hle.1, hle.2, ?_⟩
    change (c.val + 32).toNat = c.toNat + 32
    rw [UInt32.toNat_add]
    exact Nat.mod_eq_of_lt (by change c.toNat + 32 < 2 ^ 32; omega)
  · exact .inl rfl

/-- Lowering writes only letters. -/
theorem toLower_eq_of_lt {c : Char} (h : c.toLower.toNat < 97) : c.toLower = c := by
  rcases toLower_cases c with heq | ⟨hlow, -, heq⟩
  · exact heq
  · omega

theorem toLower_eq_self {c : Char} (h : c.toNat < 65) : c.toLower = c := by
  rcases toLower_cases c with heq | ⟨hlow, -, -⟩
  · exact heq
  · omega

theorem eq_of_toLower_e {c : Char} (h : c.toLower = 'e') : c = 'e' ∨ c = 'E' := by
  rcases toLower_cases c with heq | ⟨-, -, heq⟩
  · exact .inl (heq.symm.trans h)
  · right
    have hnat : ('e' : Char).toNat = c.toNat + 32 := by rw [← h]; exact heq
    exact Char.toNat_inj.1 (by simpa using hnat.symm)

/-- The characters of a literal: none is whitespace. -/
def literalChar (c : Char) : Bool := c.isDigit || c == '_' || c == '.' || c == '+' || c == '-' || c == 'e' || c == 'E'

theorem not_isWhitespace {c : Char} (h : literalChar c = true) : isWhitespace c = false := by
  have hcases : (48 ≤ c.toNat ∧ c.toNat ≤ 57) ∨ c.toNat ∈ [95, 46, 43, 45, 101, 69] := by
    simp only [literalChar, Bool.or_eq_true, beq_iff_eq, isDigit_iff] at h
    rcases h with (((((h | rfl) | rfl) | rfl) | rfl) | rfl) | rfl
    · exact .inl h
    all_goals exact .inr (by decide)
  have hbound : (32 < c.toNat ∧ c.toNat < 0x85) := by
    rcases hcases with h | h
    · omega
    · simp only [List.mem_cons, List.not_mem_nil, or_false] at h
      omega
  simp only [isWhitespace, Bool.or_eq_false_iff, Bool.and_eq_false_iff, decide_eq_false_iff_not, beq_eq_false_iff_ne]
  omega

/-! ## The pieces of a literal -/

theorem isDigit_lt {c : Char} (h : c.isDigit = true) : c.toNat < 65 := by
  have := isDigit_iff.1 h
  omega

theorem toLower_numeral {l : List Char} (h : Numeral l) : l.map Char.toLower = l := by
  have hself : ∀ c ∈ l, c.toLower = id c := by
    intro c hc
    rcases h.chars c hc with hd | rfl
    · exact toLower_eq_self (isDigit_lt hd)
    · rfl
  rw [List.map_congr_left hself, List.map_id]

/-- A text that is no letter in lower case was the same before. -/
theorem eq_of_map_toLower {l m : List Char} (h : l.map Char.toLower = m) (hm : ∀ c ∈ m, c.toNat < 97) : l = m := by
  subst h
  have hself : ∀ c ∈ l, c.toLower = id c := fun c hc => toLower_eq_of_lt (hm _ (List.mem_map_of_mem hc))
  rw [List.map_congr_left hself, List.map_id]

theorem Numeral.lt {l : List Char} (h : Numeral l) : ∀ c ∈ l, c.toNat < 97 := by
  intro c hc
  rcases h.chars c hc with hd | rfl
  · have := isDigit_lt hd
    omega
  · decide

theorem Numeral.not_mem {l : List Char} (h : Numeral l) {c : Char} (hc : c.isDigit = false) (hu : c ≠ '_') : c ∉ l := by
  intro hmem
  rcases h.chars c hmem with hd | rfl
  · simp [hd] at hc
  · exact hu rfl

theorem Numeral.head_lt {l : List Char} (h : Numeral l) : ∃ c t, l = c :: t ∧ c.toNat < 65 ∧ c ≠ '+' ∧ c ≠ '-' := by
  have hne : ∀ {c : Char}, c.isDigit = true → c ≠ '+' ∧ c ≠ '-' := by
    intro c hc
    constructor <;> (rintro rfl; cases hc)
  cases h with
  | digit hc => exact ⟨_, _, rfl, isDigit_lt hc, hne hc⟩
  | cons hc _ => exact ⟨_, _, rfl, isDigit_lt hc, hne hc⟩
  | under hc _ => exact ⟨_, _, rfl, isDigit_lt hc, hne hc⟩

section Mantissa

variable {m int frac : List Char} (h : MantissaText m int frac)
include h

theorem MantissaText.chars : ∀ c ∈ m, c.isDigit = true ∨ c = '_' ∨ c = '.' := by
  have hmem : ∀ {l : List Char}, Numeral l → ∀ c ∈ l, c.isDigit = true ∨ c = '_' ∨ c = '.' :=
    fun hl c hc => (hl.chars c hc).imp_right .inl
  intro c hc
  cases h with
  | whole hi => exact hmem hi c hc
  | point hi =>
    rcases List.mem_append.1 hc with hc | hc
    · exact hmem hi c hc
    · exact .inr (.inr (List.mem_singleton.1 hc))
  | frac hf =>
    rcases List.mem_cons.1 hc with rfl | hc
    · exact .inr (.inr rfl)
    · exact hmem hf c hc
  | both hi hf =>
    rcases List.mem_append.1 hc with hc | hc
    · exact hmem hi c hc
    · rcases List.mem_cons.1 hc with rfl | hc
      · exact .inr (.inr rfl)
      · exact hmem hf c hc

theorem MantissaText.head_lt : ∃ c t, m = c :: t ∧ c.toNat < 65 ∧ c ≠ '+' ∧ c ≠ '-' := by
  have happend : ∀ {i : List Char} (t' : List Char), Numeral i →
      ∃ c t, i ++ t' = c :: t ∧ c.toNat < 65 ∧ c ≠ '+' ∧ c ≠ '-' := by
    intro i t' hi
    obtain ⟨c, t, rfl, hc⟩ := hi.head_lt
    exact ⟨c, t ++ t', rfl, hc⟩
  cases h with
  | whole hi => exact hi.head_lt
  | point hi => exact happend _ hi
  | frac _ => exact ⟨_, _, rfl, by decide, by decide, by decide⟩
  | both hi _ => exact happend _ hi

theorem MantissaText.toLower : m.map Char.toLower = m := by
  have hself : ∀ c ∈ m, c.toLower = id c := by
    intro c hc
    rcases h.chars c hc with hd | rfl | rfl
    · exact toLower_eq_self (isDigit_lt hd)
    · rfl
    · rfl
  rw [List.map_congr_left hself, List.map_id]

theorem MantissaText.lt : ∀ c ∈ m, c.toNat < 97 := by
  intro c hc
  rcases h.chars c hc with hd | rfl | rfl
  · have := isDigit_lt hd
    omega
  · decide
  · decide

theorem MantissaText.not_mem : 'e' ∉ m := by
  intro hmem
  rcases h.chars 'e' hmem with hd | hd | hd <;> simp at hd

/-- The point splits the mantissa, where there is one. -/
theorem MantissaText.split : (splitOnce '.' m).getD (m, []) = (int, frac) := by
  have hnot : ∀ {l : List Char}, Numeral l → '.' ∉ l := fun hl => hl.not_mem rfl (by decide)
  cases h with
  | whole hi => rw [splitOnce_eq_none.2 (hnot hi)]; rfl
  | point hi => rw [splitOnce_eq_some.2 ⟨rfl, hnot hi⟩]; rfl
  | frac _ => rw [splitOnce_eq_some.2 ⟨List.nil_append _ |>.symm, by simp⟩]; rfl
  | both hi _ => rw [splitOnce_eq_some.2 ⟨rfl, hnot hi⟩]; rfl

end Mantissa

theorem mantissaText_of_split {m int frac : List Char} (hsplit : (splitOnce '.' m).getD (m, []) = (int, frac))
    (hne : ¬ (int = [] ∧ frac = [])) (hi : int ≠ [] → Numeral int) (hf : frac ≠ [] → Numeral frac) :
    MantissaText m int frac := by
  cases hs : splitOnce '.' m with
  | none =>
    rw [hs] at hsplit
    obtain ⟨rfl, rfl⟩ : m = int ∧ [] = frac := by simpa using hsplit
    exact .whole (hi fun h => hne ⟨h, rfl⟩)
  | some p =>
    rw [hs] at hsplit
    obtain rfl : p = (int, frac) := by simpa using hsplit
    obtain ⟨rfl, -⟩ := splitOnce_eq_some.1 hs
    by_cases hint : int = []
    · subst hint
      exact .frac (hf fun h => hne ⟨rfl, h⟩)
    · by_cases hfrac : frac = []
      · subst hfrac
        exact .point (hi hint)
      · exact .both (hi hint) (hf hfrac)

/-! ## Signs -/

theorem stripSign_append {s t : List Char} {neg : Bool} (hs : SignText s neg) (ht : ∃ c l, t = c :: l ∧ c ≠ '+' ∧ c ≠ '-') :
    stripSign (s ++ t) = (neg, t) := by
  obtain ⟨c, l, rfl, hplus, hminus⟩ := ht
  cases hs with
  | none =>
    rw [List.nil_append]
    unfold stripSign
    split
    · rename_i heq
      exact absurd (List.cons.inj heq).1 hminus
    · rename_i heq
      exact absurd (List.cons.inj heq).1 hplus
    · rfl
  | plus => rfl
  | minus => rfl

theorem stripSign_spec (t : List Char) : ∃ s, SignText s (stripSign t).1 ∧ t = s ++ (stripSign t).2 := by
  unfold stripSign
  split
  · exact ⟨_, .minus, rfl⟩
  · exact ⟨_, .plus, rfl⟩
  · exact ⟨_, .none, rfl⟩

theorem isNonFinite_cons {c : Char} (h : c.toNat < 65) (l : List Char) : isNonFinite (c :: l) = false := by
  have hne : c ≠ 'i' ∧ c ≠ 's' ∧ c ≠ 'n' := by
    refine ⟨?_, ?_, ?_⟩ <;> (rintro rfl; revert h; decide)
  simp [isNonFinite, List.isPrefixOf, hne.1, Ne.symm hne.2.1, Ne.symm hne.2.2]

/-! ## Scanning -/

theorem SignText.chars {s : List Char} {neg : Bool} (h : SignText s neg) : ∀ c ∈ s, literalChar c = true := by
  cases h <;> simp [literalChar]

theorem SignText.toLower {s : List Char} {neg : Bool} (h : SignText s neg) : s.map Char.toLower = s := by
  cases h <;> decide

theorem Numeral.literalChars {l : List Char} (h : Numeral l) : ∀ c ∈ l, literalChar c = true := by
  intro c hc
  rcases h.chars c hc with hd | rfl
  · simp [literalChar, hd]
  · rfl

theorem MantissaText.literalChars {m int frac : List Char} (h : MantissaText m int frac) : ∀ c ∈ m, literalChar c = true := by
  intro c hc
  rcases h.chars c hc with hd | rfl | rfl
  · simp [literalChar, hd]
  · rfl
  · rfl

theorem ExponentText.literalChars {e : List Char} {exp : Option (Bool × List Char)} (h : ExponentText e exp) :
    ∀ c ∈ e, literalChar c = true := by
  cases h with
  | none => simp
  | some he hs hd =>
    intro c hc
    rcases List.mem_cons.1 hc with rfl | hc
    · rcases he with rfl | rfl <;> rfl
    · rcases List.mem_append.1 hc with hc | hc
      · exact hs.chars c hc
      · exact hd.literalChars c hc

/-- The rest of the scan, past the sign. -/
theorem scan_eq {text body : List Char} {neg : Bool} (h : stripSign (trim text) = (neg, body)) {m int frac : List Char}
    {exp : Option (List Char)}
    (hexp : ((splitOnce 'e' (body.map Char.toLower)).map fun p => (p.1, some p.2)).getD (body.map Char.toLower, none) = (m, exp))
    (hm : (splitOnce '.' m).getD (m, []) = (int, frac)) : scan text =
    if isNonFinite (body.map Char.toLower) then .nonFinite
    else if int.isEmpty && frac.isEmpty then .invalid
    else if (!int.isEmpty && !digitsOk int) || (!frac.isEmpty && !digitsOk frac) then .invalid
    else scanExponent neg int frac exp := by
  simp only [scan, h, hexp, hm]

theorem digits_pass {int frac : List Char} (hne : ¬ (int = [] ∧ frac = [])) (hi : int ≠ [] → Numeral int)
    (hf : frac ≠ [] → Numeral frac) : (int.isEmpty && frac.isEmpty) = false ∧
    ((!int.isEmpty && !digitsOk int) || (!frac.isEmpty && !digitsOk frac)) = false := by
  constructor
  · simpa [Bool.and_eq_false_iff, not_and_or] using hne
  · have hpart : ∀ {l : List Char}, (l ≠ [] → Numeral l) → (!l.isEmpty && !digitsOk l) = false := by
      intro l hl
      by_cases hnil : l = []
      · simp [hnil]
      · simp [digitsOk_iff.2 (hl hnil)]
    rw [hpart hi, hpart hf]
    rfl

theorem MantissaText.parts {m int frac : List Char} (h : MantissaText m int frac) :
    ¬ (int = [] ∧ frac = []) ∧ (int ≠ [] → Numeral int) ∧ (frac ≠ [] → Numeral frac) := by
  cases h with
  | whole hi => exact ⟨fun h => hi.ne_nil h.1, fun _ => hi, fun h => absurd rfl h⟩
  | point hi => exact ⟨fun h => hi.ne_nil h.1, fun _ => hi, fun h => absurd rfl h⟩
  | frac hf => exact ⟨fun h => hf.ne_nil h.2, fun h => absurd rfl h, fun _ => hf⟩
  | both hi hf => exact ⟨fun h => hi.ne_nil h.1, fun _ => hi, fun _ => hf⟩

/-- Every literal is scanned into its parts. -/
theorem scan_of_literal {text int frac : List Char} {neg : Bool} {exp : Option (Bool × List Char)}
    (h : Literal text neg int frac exp) : scan text = .literal neg int frac exp := by
  obtain ⟨before, s, m, e, after, rfl, hbefore, hafter, hs, hm, he⟩ := h
  have htrim : trim (before ++ (s ++ m ++ e) ++ after) = s ++ (m ++ e) := by
    rw [← List.append_assoc s]
    apply trim_eq hbefore hafter
    intro c hc
    apply not_isWhitespace
    simp only [List.mem_append] at hc
    rcases hc with (hc | hc) | hc
    · exact hs.chars c hc
    · exact hm.literalChars c hc
    · exact he.literalChars c hc
  obtain ⟨c, t, hct, hlt, hplus, hminus⟩ := hm.head_lt
  have hstrip : stripSign (trim (before ++ (s ++ m ++ e) ++ after)) = (neg, m ++ e) := by
    rw [htrim]
    exact stripSign_append hs ⟨c, t ++ e, by rw [hct]; rfl, hplus, hminus⟩
  have hlower : (m ++ e).map Char.toLower = m ++ e.map Char.toLower := by rw [List.map_append, hm.toLower]
  have hfinite : isNonFinite ((m ++ e).map Char.toLower) = false := by
    rw [hlower, hct]
    exact isNonFinite_cons hlt _
  obtain ⟨hne, hi, hf⟩ := hm.parts
  obtain ⟨hempty, hdigits⟩ := digits_pass hne hi hf
  cases he with
  | none =>
    have hsplit : ((splitOnce 'e' ((m ++ []).map Char.toLower)).map fun p => (p.1, some p.2)).getD
        ((m ++ []).map Char.toLower, none) = (m, none) := by
      rw [hlower, List.map_nil, List.append_nil, splitOnce_eq_none.2 hm.not_mem]
      rfl
    rw [scan_eq hstrip hsplit hm.split, hfinite, hempty, hdigits]
    rfl
  | @some e s' ds eneg he hs' hd =>
    have hlower' : (e :: (s' ++ ds)).map Char.toLower = 'e' :: (s' ++ ds) := by
      have hed : e.toLower = 'e' := by rcases he with rfl | rfl <;> rfl
      rw [List.map_cons, List.map_append, hs'.toLower, toLower_numeral hd, hed]
    obtain ⟨d, l, hdl, -, hdplus, hdminus⟩ := hd.head_lt
    have hsplit : ((splitOnce 'e' ((m ++ e :: (s' ++ ds)).map Char.toLower)).map fun p => (p.1, some p.2)).getD
        ((m ++ e :: (s' ++ ds)).map Char.toLower, none) = (m, some (s' ++ ds)) := by
      rw [hlower, hlower', splitOnce_eq_some.2 ⟨rfl, hm.not_mem⟩]
      rfl
    rw [scan_eq hstrip hsplit hm.split, hfinite, hempty, hdigits]
    simp [scanExponent, stripSign_append hs' ⟨d, l, hdl, hdplus, hdminus⟩, digitsOk_iff.2 hd]

theorem SignText.lt {s : List Char} {neg : Bool} (h : SignText s neg) : ∀ c ∈ s, c.toNat < 97 := by
  cases h <;> simp

/-- What the exponent part lets through is nothing, or a signed numeral. -/
theorem scanExponent_eq {i f int frac : List Char} {n neg : Bool} {exp : Option (Bool × List Char)} {e : Option (List Char)}
    (h : scanExponent n i f e = .literal neg int frac exp) : (n = neg ∧ i = int ∧ f = frac) ∧
    ((e = none ∧ exp = none) ∨ ∃ s ds eneg, e = some (s ++ ds) ∧ exp = some (eneg, ds) ∧ SignText s eneg ∧ Numeral ds) := by
  cases e with
  | none =>
    obtain ⟨rfl, rfl, rfl, rfl⟩ := Scan.literal.inj h
    exact ⟨⟨rfl, rfl, rfl⟩, .inl ⟨rfl, rfl⟩⟩
  | some e =>
    obtain ⟨s, hs, he⟩ := stripSign_spec e
    simp only [scanExponent] at h
    split_ifs at h with hok
    obtain ⟨rfl, rfl, rfl, rfl⟩ := Scan.literal.inj h
    exact ⟨⟨rfl, rfl, rfl⟩, .inr ⟨s, _, _, congrArg some he, rfl, hs, digitsOk_iff.1 hok⟩⟩

/-- The mantissa and the exponent of a body, as they were before lowering. -/
theorem body_parts {body m int frac : List Char} {e : Option (List Char)} {exp : Option (Bool × List Char)}
    (hsplit : ((splitOnce 'e' (body.map Char.toLower)).map fun p => (p.1, some p.2)).getD (body.map Char.toLower, none) = (m, e))
    (hm : MantissaText m int frac) (he : (e = none ∧ exp = none) ∨
      ∃ s ds eneg, e = some (s ++ ds) ∧ exp = some (eneg, ds) ∧ SignText s eneg ∧ Numeral ds) :
    ∃ e', body = m ++ e' ∧ ExponentText e' exp := by
  cases hs : splitOnce 'e' (body.map Char.toLower) with
  | none =>
    rw [hs] at hsplit
    obtain ⟨hbody, rfl⟩ : body.map Char.toLower = m ∧ none = e := by simpa using hsplit
    rcases he with ⟨-, rfl⟩ | ⟨s, ds, eneg, h, -⟩
    · exact ⟨[], by rw [List.append_nil]; exact eq_of_map_toLower hbody hm.lt, .none⟩
    · cases h
  | some p =>
    rw [hs] at hsplit
    obtain ⟨rfl, rfl⟩ : p.1 = m ∧ some p.2 = e := by simpa using hsplit
    obtain ⟨hbody, -⟩ := splitOnce_eq_some.1 hs
    rcases he with ⟨h, -⟩ | ⟨s, ds, eneg, h, rfl, hsign, hd⟩
    · cases h
    · obtain ⟨a, b, rfl, ha, hb⟩ := List.map_eq_append_iff.1 hbody
      obtain ⟨x, rest, rfl, hx, hrest⟩ := List.map_eq_cons_iff.1 hb
      have hrest' : rest = s ++ ds := by
        apply eq_of_map_toLower (hrest.trans (Option.some.inj h))
        intro c hc
        exact (List.mem_append.1 hc).elim (hsign.lt c) (hd.lt c)
      rw [eq_of_map_toLower ha hm.lt, hrest']
      exact ⟨x :: (s ++ ds), rfl, .some (eq_of_toLower_e hx) hsign hd⟩

/-- What is scanned is a literal with those parts. -/
theorem literal_of_scan {text int frac : List Char} {neg : Bool} {exp : Option (Bool × List Char)}
    (h : scan text = .literal neg int frac exp) : Literal text neg int frac exp := by
  obtain ⟨before, after, htext, hbefore, hafter⟩ := trim_spec text
  obtain ⟨s, hs, hbody⟩ := stripSign_spec (trim text)
  generalize hstrip : stripSign (trim text) = stripped at *
  obtain ⟨sneg, body⟩ := stripped
  generalize hexp : ((splitOnce 'e' (body.map Char.toLower)).map fun p => (p.1, some p.2)).getD (body.map Char.toLower, none) = p
  obtain ⟨m, e⟩ := p
  generalize hm : (splitOnce '.' m).getD (m, []) = q
  obtain ⟨i, f⟩ := q
  rw [scan_eq hstrip hexp hm] at h
  split_ifs at h with hnon hempty hdigits
  obtain ⟨⟨rfl, rfl, rfl⟩, he⟩ := scanExponent_eq h
  have hmant : MantissaText m i f := by
    simp only [Bool.or_eq_true, Bool.and_eq_true, Bool.not_eq_true', not_or, not_and, Bool.not_eq_false,
      List.isEmpty_eq_false_iff, digitsOk_iff] at hdigits
    exact mantissaText_of_split hm (by simpa using hempty) hdigits.1 hdigits.2
  obtain ⟨e', hbody', hexp'⟩ := body_parts hexp hmant he
  refine ⟨before, s, m, e', after, ?_, hbefore, hafter, hs, hmant, hexp'⟩
  rw [htext, hbody, hbody', List.append_assoc s]

/-! ## The number -/

/-- The constructor as its library documents it: 96 bits of mantissa, 28 places, and no rounding. -/
structure DecimalLib.Documented (L : DecimalLib) : Prop where
  holds : ∀ (m : ℤ) (s : ℕ), |m| < 2 ^ 96 → s ≤ 28 → ∃ d, L.tryFromI128WithScale m s = some d ∧ L.num d = m / 10 ^ s
  refuses : ∀ (m : ℤ) (s : ℕ), ¬ (|m| < 2 ^ 96 ∧ s ≤ 28) → L.tryFromI128WithScale m s = none

/-- A number of at most 96 bits of mantissa and 28 places. -/
def Representable (x : ℚ) : Prop := ∃ (m : ℤ) (s : ℕ), |m| < 2 ^ 96 ∧ s ≤ 28 ∧ x = m / 10 ^ s

section Number

variable {L : DecimalLib} (hL : L.Documented) (text : String) (neg : Bool)

/-- Refused, or a decimal that stands for the number. -/
def Holds (L : DecimalLib) (x : ℚ) (r : Except Fault L.Dec) : Prop :=
  (∃ e, r = .error (.risk e)) ∨ ∃ d, r = .ok d ∧ L.num d = x ∧ Representable x

include hL in
theorem decimalOf_holds {m s : ℤ} (hs : 0 ≤ s) :
    Holds L ((if neg then -1 else 1) * (m / 10 ^ s)) (decimalOf L text neg m s) := by
  have hval : ∀ {t : ℤ}, 0 ≤ t → (if neg then -1 else 1) * ((m : ℚ) / 10 ^ t) =
      ((if neg then -m else m : ℤ) : ℚ) / 10 ^ t.toNat := by
    intro t ht
    have hpow : (10 : ℚ) ^ t = 10 ^ t.toNat := by
      rw [← zpow_natCast, Int.toNat_of_nonneg ht]
    rw [hpow]
    cases neg <;> simp [neg_div]
  have hzero : ∀ {t : ℤ}, 0 ≤ t → ((m : ℚ) / 10 ^ t) = m / 10 ^ (if m = 0 then min t 28 else t) := by
    intro t _
    by_cases hm : m = 0
    · simp [hm]
    · rw [if_neg hm]
  have hnonneg : 0 ≤ (if m = 0 then min s 28 else s) := by
    split_ifs
    · omega
    · exact hs
  rw [hzero hs]
  simp only [decimalOf]
  generalize (if m = 0 then min s 28 else s) = t at hnonneg ⊢
  by_cases ht : t > 28
  · rw [if_pos ht]
    exact .inl ⟨_, rfl⟩
  · rw [if_neg ht]
    by_cases hm : |(if neg then -m else m)| < 2 ^ 96
    · obtain ⟨d, hd, hnum⟩ := hL.holds _ t.toNat hm (by omega)
      rw [hd]
      exact .inr ⟨d, rfl, by rw [hnum, hval hnonneg], _, t.toNat, hm, by omega, hval hnonneg⟩
    · rw [hL.refuses _ _ fun h => hm h.1]
      exact .inl ⟨_, rfl⟩

theorem scaleUp_cases (n : ℕ) (m : ℤ) :
    (∃ e, scaleUp text n m = .error (.risk e)) ∨ scaleUp text n m = .ok (m * 10 ^ n) := by
  induction n generalizing m with
  | zero => exact .inr (by simp [scaleUp])
  | succ n ih =>
    rw [scaleUp]
    split_ifs
    · rw [pow_succ', ← mul_assoc]
      exact ih (m * 10)
    · exact .inl ⟨_, rfl⟩

theorem fitI64_eq {checks : Bool} {x : ℤ} (hlow : -i64Limit ≤ x) (hhigh : x < i64Limit) : fitI64 checks x = .ok x := by
  rw [fitI64, if_pos ⟨hlow, hhigh⟩]

theorem exponentOf_eq {exp : Option (Bool × List Char)} (h : |exponentValue exp| < i64Limit) :
    exponentOf text exp = .ok (exponentValue exp) := by
  cases exp with
  | none => rfl
  | some e =>
    obtain ⟨eneg, edigits⟩ := e
    have hlt : (digitsValue edigits : ℤ) < i64Limit := by
      cases eneg
      · simpa [exponentValue] using h
      · simpa [exponentValue] using h
    simp only [exponentOf, if_pos hlt, exponentValue]

theorem exponentOf_refuses {exp : Option (Bool × List Char)} (h : ¬ |exponentValue exp| < i64Limit) :
    ∃ e, exponentOf text exp = .error (.risk e) := by
  cases exp with
  | none => exact absurd (by simp [exponentValue, i64Limit]) h
  | some e =>
    obtain ⟨eneg, edigits⟩ := e
    have hge : ¬ (digitsValue edigits : ℤ) < i64Limit := by
      cases eneg
      · simpa [exponentValue] using h
      · simpa [exponentValue] using h
    exact ⟨_, by simp only [exponentOf, if_neg hge]; rfl⟩

include hL in
/-- A literal whose scale fits is refused or read exactly. -/
theorem assemble_holds {checks : Bool} {int frac : List Char} {exp : Option (Bool × List Char)}
    (hfit : |exponentValue exp| < i64Limit → (digitsValue (int ++ frac) : ℤ) < i128Limit →
      places frac - exponentValue exp < i64Limit) :
    Holds L (literalValue neg int frac exp) (assemble L checks text neg int frac exp) := by
  by_cases hexp : |exponentValue exp| < i64Limit
  case neg =>
    obtain ⟨e, he⟩ := exponentOf_refuses text hexp
    exact .inl ⟨e, by rw [assemble, he]; rfl⟩
  by_cases hmant : (digitsValue (int ++ frac) : ℤ) < i128Limit
  case neg => exact .inl ⟨_, by rw [assemble, exponentOf_eq text hexp, mantissaOf, if_neg hmant]; rfl⟩
  have hlow : -i64Limit ≤ (places frac : ℤ) - exponentValue exp := by
    have := abs_lt.1 hexp
    omega
  have hscale : fitI64 checks (places frac - exponentValue exp) = .ok (places frac - exponentValue exp) :=
    fitI64_eq hlow (hfit hexp hmant)
  have hunfold : assemble L checks text neg int frac exp = if (places frac : ℤ) - exponentValue exp < 0 then do
        let times ← fitI64 checks (-(places frac - exponentValue exp))
        let mantissa ← scaleUp text times.toNat (digitsValue (int ++ frac))
        decimalOf L text neg mantissa 0
      else decimalOf L text neg (digitsValue (int ++ frac)) (places frac - exponentValue exp) := by
    rw [assemble, exponentOf_eq text hexp, mantissaOf, if_pos hmant]
    change (do
      let scale ← fitI64 checks (places frac - exponentValue exp)
      _) = _
    rw [hscale]
    rfl
  rw [hunfold]
  split_ifs with hneg
  · have hup : fitI64 checks (-(places frac - exponentValue exp)) = .ok (-(places frac - exponentValue exp)) :=
      fitI64_eq (by omega) (by have := abs_lt.1 hexp; omega)
    rw [hup]
    rcases scaleUp_cases text (-(places frac - exponentValue exp)).toNat (digitsValue (int ++ frac)) with ⟨e, he⟩ | he
    · exact .inl ⟨e, by change (do let mantissa ← scaleUp text _ _; _) = _; rw [he]; rfl⟩
    · have hdec := decimalOf_holds hL text neg (m := digitsValue (int ++ frac) *
        10 ^ (-(places frac - exponentValue exp)).toNat) (s := 0) le_rfl
      have hpow : (10 : ℚ) ^ (exponentValue exp - places frac) = 10 ^ (-(places frac - exponentValue exp)).toNat := by
        rw [← zpow_natCast, Int.toNat_of_nonneg (by omega), neg_sub]
      have hval : literalValue neg int frac exp = (if neg then -1 else 1) *
          (((digitsValue (int ++ frac) * 10 ^ (-(places frac - exponentValue exp)).toNat : ℤ) : ℚ) / 10 ^ (0 : ℤ)) := by
        rw [literalValue, hpow, zpow_zero, div_one]
        push_cast
        rfl
      rw [hval]
      change Holds L _ (do
        let mantissa ← scaleUp text _ _
        _)
      rw [he]
      exact hdec
  · have hdec := decimalOf_holds hL text neg (m := digitsValue (int ++ frac)) (not_lt.1 hneg)
    convert hdec using 1
    rw [literalValue, Int.cast_natCast, div_eq_mul_inv, ← zpow_neg, neg_sub]

/-- A literal whose scale does not fit panics, with overflow checks. -/
theorem assemble_panics {int frac : List Char} {exp : Option (Bool × List Char)} (hexp : |exponentValue exp| < i64Limit)
    (hmant : (digitsValue (int ++ frac) : ℤ) < i128Limit) (hover : i64Limit ≤ places frac - exponentValue exp) :
    assemble L true text neg int frac exp = .error .panic := by
  have hscale : fitI64 true (places frac - exponentValue exp) = .error .panic := by
    rw [fitI64, if_neg fun h => absurd h.2 (not_lt.2 hover)]
    rfl
  rw [assemble, exponentOf_eq text hexp, mantissaOf, if_pos hmant]
  change (do
    let scale ← fitI64 true (places frac - exponentValue exp)
    _) = _
  rw [hscale]
  rfl

end Number

/-! ## What a text is -/

/-- A signed `inf`, `infinity`, `nan` or `snan` in any case, the last two with digits behind, in whitespace. -/
def NonFiniteText (text : List Char) : Prop :=
  ∃ before s b after neg, text = before ++ (s ++ b) ++ after ∧ (∀ c ∈ before, isWhitespace c = true) ∧
    (∀ c ∈ after, isWhitespace c = true) ∧ SignText s neg ∧
    (b.map Char.toLower = "inf".toList ∨ b.map Char.toLower = "infinity".toList ∨
      ∃ ds, (∀ c ∈ ds, c.isDigit = true) ∧ (b.map Char.toLower = "nan".toList ++ ds ∨ b.map Char.toLower = "snan".toList ++ ds))

theorem isNonFinite_cases {l : List Char} (h : isNonFinite l = true) : l = "inf".toList ∨ l = "infinity".toList ∨
    ∃ ds, (∀ c ∈ ds, c.isDigit = true) ∧ (l = "nan".toList ++ ds ∨ l = "snan".toList ++ ds) := by
  have hform : ∀ p : List Char, (p.isPrefixOf l && (l.drop p.length).all Char.isDigit) = true →
      (∀ c ∈ l.drop p.length, c.isDigit = true) ∧ l = p ++ l.drop p.length := by
    intro p hp
    rw [Bool.and_eq_true, List.isPrefixOf_iff_prefix, List.all_eq_true] at hp
    exact ⟨hp.2, (List.prefix_iff_eq_append.1 hp.1).symm⟩
  simp only [isNonFinite, Bool.or_eq_true, beq_iff_eq, List.any_eq_true, List.mem_cons, List.not_mem_nil, or_false] at h
  rcases h with (h | h) | ⟨p, rfl | rfl, hp⟩
  · exact .inl h
  · exact .inr (.inl h)
  · exact .inr (.inr ⟨_, (hform _ hp).1, .inr (hform _ hp).2⟩)
  · exact .inr (.inr ⟨_, (hform _ hp).1, .inl (hform _ hp).2⟩)

theorem nonFiniteText_of_scan {text : List Char} (h : scan text = .nonFinite) : NonFiniteText text := by
  obtain ⟨before, after, htext, hbefore, hafter⟩ := trim_spec text
  obtain ⟨s, hs, hbody⟩ := stripSign_spec (trim text)
  generalize hstrip : stripSign (trim text) = stripped at *
  obtain ⟨neg, body⟩ := stripped
  generalize hexp : ((splitOnce 'e' (body.map Char.toLower)).map fun p => (p.1, some p.2)).getD (body.map Char.toLower, none) = p
  obtain ⟨m, e⟩ := p
  generalize hm : (splitOnce '.' m).getD (m, []) = q
  obtain ⟨i, f⟩ := q
  rw [scan_eq hstrip hexp hm] at h
  split_ifs at h with hnon hempty hdigits
  · exact ⟨before, s, body, after, neg, by rw [htext, hbody], hbefore, hafter, hs, isNonFinite_cases hnon⟩
  · cases e with
    | none => cases h
    | some e =>
      simp only [scanExponent] at h
      split_ifs at h

end TradeEngine.Risk
