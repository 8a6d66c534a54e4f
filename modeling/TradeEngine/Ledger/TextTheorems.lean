import TradeEngine.Ledger.Lemmas.Iso
import TradeEngine.Money.Text

/-!
# Amounts and datetimes survive their texts
-/

namespace TradeEngine

open Lib

/-- An amount is read back from its canonical text, equal texts are equal values, and a datetime of Python's range is read
back from its ISO text. -/
theorem text_round_trips :
    (∀ a : Money, Money.parse a.canon = some a) ∧ (∀ a b : Money, a.canon = b.canon ↔ a.eqNum b = true) ∧
      ∀ t : DateTime, t.InRange → parseDatetime t.iso = .ok (t, true) := by
  refine ⟨fun a => ?_, fun a b => ?_, fun t ht => parseDatetime_iso ht⟩
  · rw [Money.parse, Money.tryParse_canon]
    rfl
  · rw [Money.eqNum_iff]
    constructor
    · intro h
      rw [Money.canon_injective h]
    · intro h
      rw [Money.val_injective h]

/-- A reading with microseconds and an offset to the second. -/
def oddReading : DateTime := ⟨.ymd 1911 1 1, 3723, 40, -17762⟩

theorem text_round_trips_odd_reading : oddReading.iso = "1911-01-01T01:02:03.000040-04:56:02" ∧
    parseDatetime oddReading.iso = .ok (oddReading, true) :=
  ⟨by decide +kernel, text_round_trips.2.2 oddReading ⟨by decide, by decide, by decide, by decide⟩⟩

/-- The first instant of the year 10000. -/
def fiveDigitYear : DateTime := ⟨.ymd 10000 1 1, 0, 0, 0⟩

/-- It is written with five digits and not read back. -/
theorem year_of_five_digits : fiveDigitYear.iso = "10000-01-01T00:00:00+00:00" ∧
    (parseDatetime fiveDigitYear.iso).toOption = none := by
  decide +kernel

end TradeEngine
