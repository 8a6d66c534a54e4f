import TradeEngine.Ledger.Lemmas.Json

/-!
# JSON round trip
-/

namespace TradeEngine

namespace Json

/-- Parsing the text of a value gives it back with the pairs of its objects in key order. -/
theorem parse_dumps (v : Json) (hw : v.WellFormed) (hd : v.depth ≤ maxDepth) : parse (dumps v) = .ok v.sorted := by
  obtain ⟨c, t, htext, hws, -⟩ := writeJson_head hw
  have hread := reads hw ((writeJson v).length + 1) 0 [] (by omega) (by omega) (by simp [Ends])
  rw [List.append_nil] at hread
  have hstart : ws (writeJson v) = writeJson v := by rw [htext, ws_cons hws]
  have hend : ws [] = [] := rfl
  simp [parse, dumps, hstart, hread, hend, bind, Except.bind, pure, Except.pure]

/-- An object out of order: a float and a string of escapes in an array, an integer beyond 128 bits. -/
def sample : Json :=
  .obj [("b", .arr [.float "-1.5e3", .str "\x00\n\"\\é😀"]), ("a", .bigInt "170141183460469231731687303715884105728")]

theorem sample_wellFormed : sample.WellFormed := by
  have hdigits : ∀ l : List Char, l ≠ [] → l.all Char.isDigit = true → Digits l := fun l hne h => ⟨hne, List.all_eq_true.1 h⟩
  have hbig : IsInteger "170141183460469231731687303715884105728".toList :=
    ⟨[], _, .inl rfl, hdigits _ (by decide) (by decide +kernel), by decide +kernel, rfl⟩
  have hwhole : IsInteger "-1".toList := ⟨['-'], ['1'], .inr rfl, hdigits _ (by decide) (by decide +kernel), by decide +kernel, rfl⟩
  have hfrac : IsFraction ".5".toList := .inr ⟨['5'], hdigits _ (by decide) (by decide +kernel), rfl⟩
  have hexp : IsExponent "e3".toList := .inr ⟨'e', [], ['3'], .inl rfl, .inl rfl, hdigits _ (by decide) (by decide +kernel), rfl⟩
  have hfloat : IsFloat "-1.5e3".toList := .inr (.inr (.inr ⟨_, _, _, hwhole, hfrac, hexp, by decide +kernel, rfl⟩))
  simp only [sample, WellFormed, WellFormedPairs, WellFormedItems, and_true]
  exact ⟨by decide +kernel, hfloat, hbig, by decide +kernel⟩

theorem parse_dumps_sample : sample.depth ≤ maxDepth ∧ parse (dumps sample) = .ok sample.sorted := by
  have hd : sample.depth ≤ maxDepth := by decide
  exact ⟨hd, parse_dumps sample sample_wellFormed hd⟩

end Json

end TradeEngine
