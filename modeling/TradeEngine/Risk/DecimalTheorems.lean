import TradeEngine.Lib.Except
import TradeEngine.Risk.Lemmas.Decimal

/-!
# Decimal text is read exactly or refused

Every text is read as the number it denotes, refused, or recognised as no number, unless its scale overflows.
-/

namespace TradeEngine.Risk

/-- The text denotes the number. -/
def Denotes (text : String) (x : ℚ) : Prop :=
  ∃ neg int frac exp, Literal text.toList neg int frac exp ∧ x = literalValue neg int frac exp

/-- What the parser makes of a text: no panic, an exact number or a refusal of one that the library cannot hold, and
`invalid` for what is neither a literal nor a `nan` or `inf` form. -/
structure ParsesExactly (L : DecimalLib) (checks : Bool) (text : String) : Prop where
  no_overflow : parsePyDecimal L checks text ≠ .error .panic
  exact : ∀ d, parsePyDecimal L checks text = .ok (.finite d) → Denotes text (L.num d)
  refused : ∀ x, Denotes text x → ¬ Representable x → ∃ e, parsePyDecimal L checks text = .error (.risk e)
  invalid : (∀ x, ¬ Denotes text x) → ¬ NonFiniteText text.toList → parsePyDecimal L checks text = .ok .invalid

/-- A literal with its exponent in 64 bits and its digits in 128, whose scale is beyond 64. -/
def Overflows (text : String) : Prop :=
  ∃ neg int frac exp, Literal text.toList neg int frac exp ∧ |exponentValue exp| < i64Limit ∧
    (digitsValue (int ++ frac) : ℤ) < i128Limit ∧ i64Limit ≤ places frac - exponentValue exp

variable {L : DecimalLib}

theorem parse_of_literal {checks : Bool} {text : String} {neg : Bool} {int frac : List Char}
    {exp : Option (Bool × List Char)} (h : Literal text.toList neg int frac exp) :
    parsePyDecimal L checks text = (assemble L checks text neg int frac exp).map .finite := by
  rw [parsePyDecimal, scan_of_literal h]

theorem not_literal {text : String} (h : ∀ x, ¬ Denotes text x) {neg : Bool} {int frac : List Char}
    {exp : Option (Bool × List Char)} : scan text.toList ≠ .literal neg int frac exp :=
  fun hs => h _ ⟨neg, int, frac, exp, literal_of_scan hs, rfl⟩

theorem parsesExactly_of_fits (hL : L.Documented) {text : String} (hfit : ¬ Overflows text) (checks : Bool) :
    ParsesExactly L checks text := by
  have hread : ∀ {neg int frac exp}, Literal text.toList neg int frac exp →
      Holds L (literalValue neg int frac exp) (assemble L checks text neg int frac exp) := by
    intro neg int frac exp hlit
    apply assemble_holds hL text neg
    intro hexp hmant
    by_contra hover
    exact hfit ⟨neg, int, frac, exp, hlit, hexp, hmant, not_lt.1 hover⟩
  constructor
  · intro hpanic
    cases hs : scan text.toList with
    | nonFinite => simp [parsePyDecimal, hs] at hpanic
    | invalid => simp [parsePyDecimal, hs] at hpanic
    | literal neg int frac exp =>
      have hlit := literal_of_scan hs
      rw [parse_of_literal hlit] at hpanic
      rcases hread hlit with ⟨e, he⟩ | ⟨d, hd, -⟩
      · rw [he] at hpanic
        cases hpanic
      · rw [hd] at hpanic
        cases hpanic
  · intro d hd
    cases hs : scan text.toList with
    | nonFinite => simp [parsePyDecimal, hs] at hd
    | invalid => simp [parsePyDecimal, hs] at hd
    | literal neg int frac exp =>
      have hlit := literal_of_scan hs
      rw [parse_of_literal hlit] at hd
      rcases hread hlit with ⟨e, he⟩ | ⟨d', hd', hnum, -⟩
      · rw [he] at hd
        cases hd
      · rw [hd'] at hd
        cases hd
        exact ⟨neg, int, frac, exp, hlit, hnum⟩
  · rintro x ⟨neg, int, frac, exp, hlit, rfl⟩ hx
    rcases hread hlit with ⟨e, he⟩ | ⟨d, -, -, hrep⟩
    · exact ⟨e, by rw [parse_of_literal hlit, he]; rfl⟩
    · exact absurd hrep hx
  · intro hnone hfinite
    cases hs : scan text.toList with
    | nonFinite => exact absurd (nonFiniteText_of_scan hs) hfinite
    | invalid => rw [parsePyDecimal, hs]
    | literal neg int frac exp => exact absurd hs (not_literal hnone)

/-- Exactly the texts whose scale overflows break the promise: the fraction digits less a negative exponent do not
fit 64 bits. -/
theorem parsePyDecimal_exact_iff (L : DecimalLib) (hL : L.Documented) (text : String) :
    (∀ checks, ParsesExactly L checks text) ↔ ¬ Overflows text := by
  constructor
  · rintro h ⟨neg, int, frac, exp, hlit, hexp, hmant, hover⟩
    apply (h true).no_overflow
    rw [parse_of_literal hlit, assemble_panics text neg hexp hmant hover]
    rfl
  · exact parsesExactly_of_fits hL

namespace Sample

/-- Mantissas and scales, held where the library holds them. -/
abbrev decimals : DecimalLib where
  Dec := ℤ × ℕ
  num d := d.1 / 10 ^ d.2
  tryFromI128WithScale m s := if |m| < 2 ^ 96 ∧ s ≤ 28 then some (m, s) else none

theorem decimals_documented : decimals.Documented where
  holds m s hm hs := ⟨(m, s), if_pos ⟨hm, hs⟩, rfl⟩
  refuses _ _ h := if_neg h

/-- One and a half, as small as the exponent allows. -/
def tiny : String := "1.5e-9223372036854775807"

end Sample

theorem parsePyDecimal_exact_half : ¬ Overflows "-1_000.50e-2" ∧
    ∀ checks, ParsesExactly Sample.decimals checks "-1_000.50e-2" := by
  rw [parsePyDecimal_exact_iff Sample.decimals Sample.decimals_documented, and_self]
  rintro ⟨neg, int, frac, exp, hlit, -, -, hover⟩
  have hscan : scan "-1_000.50e-2".toList = .literal true "1_000".toList "50".toList (some (true, "2".toList)) := by
    decide +kernel
  rw [scan_of_literal hlit] at hscan
  obtain ⟨-, -, rfl, rfl⟩ := Scan.literal.inj hscan
  revert hover
  decide +kernel

/-- The scale of `1.5e-9223372036854775807` is beyond 64 bits: the parser panics with overflow checks and reads fifteen
without. -/
theorem parsePyDecimal_overflow : parsePyDecimal Sample.decimals true Sample.tiny = .error .panic ∧
    parsePyDecimal Sample.decimals false Sample.tiny = .ok (.finite (15, 0)) ∧
    ¬ ParsesExactly Sample.decimals false Sample.tiny := by
  have hscan : scan Sample.tiny.toList = .literal false "1".toList "5".toList (some (true, "9223372036854775807".toList)) := by
    decide +kernel
  have hpanic : parsePyDecimal Sample.decimals true Sample.tiny = .error .panic := by
    rw [parse_of_literal (literal_of_scan hscan), assemble_panics _ _ (by decide +kernel) (by decide +kernel) (by decide +kernel)]
    rfl
  have hsome : @Eq (Option (Parsed (ℤ × ℕ))) (parsePyDecimal Sample.decimals false Sample.tiny).toOption
      (some (.finite (15, 0))) := by
    decide +kernel
  have hfifteen : parsePyDecimal Sample.decimals false Sample.tiny = .ok (.finite (15, 0)) := Lib.toOption_eq_some.1 hsome
  refine ⟨hpanic, hfifteen, fun h => ?_⟩
  obtain ⟨neg, int, frac, exp, hlit, hval⟩ := h.exact _ hfifteen
  rw [scan_of_literal hlit] at hscan
  obtain ⟨rfl, rfl, rfl, rfl⟩ := Scan.literal.inj hscan
  -- fifteen times a negative power of ten is not fifteen
  have hexp : exponentValue (some (true, "9223372036854775807".toList)) - places "5".toList < 0 := by decide +kernel
  have hdigits : digitsValue ("1".toList ++ "5".toList) = 15 := by decide +kernel
  have hpow : (10 : ℚ) ^ (exponentValue (some (true, "9223372036854775807".toList)) - places "5".toList) < 1 :=
    zpow_lt_one_of_neg₀ (by norm_num) hexp
  have hnum : Sample.decimals.num (15, 0) = 15 := by
    simp
  rw [hnum, literalValue, hdigits] at hval
  norm_num at hval
  linarith

end TradeEngine.Risk
