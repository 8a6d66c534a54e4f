import TradeEngine.Ledger.Theorems
import TradeEngine.Options.Lemmas.Occ
import TradeEngine.Sim.Lemmas.Symbol

/-!
# Keys identify instruments

The names the constructors let through hold no separator, so the key of a combo falls apart into the keys of its legs.
-/

namespace TradeEngine

open Lib

/-! ## What the constructors return -/

inductive Contract.Made : Contract → Prop
  | equity {raw : String} {c : Contract} : makeEquity raw = .ok c → Made c
  | option (c : OptionContract) : Made (.option c)
  | future {symbol : String} {f : FutureContract} : Sim.parseFutureSymbol symbol = some (.ok f) → Made (.future f)

/-- A combo has at least one leg. -/
inductive Instrument.Made : Instrument → Prop
  | single {c : Contract} : c.Made → Made (.single c)
  | combo {legs : List ComboLeg} : legs ≠ [] → (∀ l ∈ legs, l.contract.Made) → Made (.combo legs)

/-! ## Names -/

theorem symbolShape_mem {cs : List Char} (h : symbolShape cs = true) {c : Char} (hc : c ∈ cs) : isAlnum c = true ∨ c = '.' := by
  have hsplit : cs.takeWhile (· != '.') ++ cs.dropWhile (· != '.') = cs := List.takeWhile_append_dropWhile
  have hdrop : cs.drop (cs.takeWhile (· != '.')).length = cs.dropWhile (· != '.') := by
    have hleft := @List.drop_left _ (cs.takeWhile (· != '.')) (cs.dropWhile (· != '.'))
    rwa [hsplit] at hleft
  unfold symbolShape at h
  dsimp only at h
  rw [hdrop] at h
  split at h
  · exact .inl (List.all_eq_true.1 h c hc)
  · rename_i dot cls htail
    have hdot : (dot != '.') = false := by
      have := List.head?_dropWhile_not (· != '.') cs
      simpa [htail] using this
    simp only [Bool.and_eq_true, List.all_eq_true] at h
    obtain ⟨⟨⟨⟨-, hroot⟩, -⟩, -⟩, hcls⟩ := h
    rw [← hsplit, List.mem_append, htail, List.mem_cons] at hc
    rcases hc with hc | rfl | hc
    · exact .inl (hroot c hc)
    · exact .inr (by simpa using hdot)
    · exact .inl (by rw [isAlnum, hcls c hc, Bool.true_or])

theorem equitySymbol_mem {raw s : String} (h : equitySymbol raw = .ok s) {c : Char} (hc : c ∈ s.toList) :
    isAlnum c = true ∨ c = '.' := by
  unfold equitySymbol at h
  generalize hsym : upper (strip raw) = sym at h
  by_cases hraw : raw = ""
  · simp [hraw] at h
  by_cases hempty : sym = ""
  · simp [hraw, hempty] at h
  by_cases hlong : sym.length > 10
  · simp [hraw, hempty, hlong] at h
  by_cases hshape : symbolShape sym.toList = true
  · simp only [hraw, hempty, hlong, hshape, if_false, if_true, pure_eq_ok] at h
    subst h
    exact symbolShape_mem hshape hc
  · simp [hraw, hempty, hlong, hshape] at h

theorem parseFutureSymbol_root {symbol : String} {f : FutureContract} (h : Sim.parseFutureSymbol symbol = some (.ok f)) :
    f.root ∈ Sim.candidates := by
  unfold Sim.parseFutureSymbol at h
  split at h
  · simp at h
  · split at h
    · exact absurd rfl (Sim.unknownRoot_error h f)
    · rename_i root hroot
      obtain ⟨remainder, -, h⟩ := Option.bind_eq_some_iff.1 h
      split at h
      · simp at h
      · obtain ⟨month, -, h⟩ := Option.map_eq_some_iff.1 h
        cases month with
        | error e => simp [Except.map] at h
        | ok m =>
          cases h
          exact (Sim.matchRoot_some hroot).1

theorem notMem_name {sep : Char} (hsep : isAlnum sep = false) (hpoint : sep ≠ '.') {name : List Char}
    (h : ∀ c ∈ name, isAlnum c = true ∨ c = '.') : sep ∉ name := by
  intro hmem
  rcases h sep hmem with hs | hs
  · rw [hs] at hsep
    cases hsep
  · exact hpoint hs

/-! ## Legs -/

theorem notMem_nat {sep : Char} (h : Separates sep) {n : Int} (hn : 0 < n) : sep ∉ (toString n).toList := by
  obtain ⟨k, rfl⟩ := Int.eq_ofNat_of_zero_le hn.le
  rw [toString_natCast_toList]
  exact notMem_toDigits h.digit k

/-- No key of a contract holds the separator of legs. -/
theorem Contract.Made.notMem_hk {c : Contract} (h : c.Made) : '\x02' ∉ c.hk.toList := by
  have hname : ∀ name : List Char, (∀ x ∈ name, isAlnum x = true ∨ x = '.') → '\x02' ∉ name := fun name hall =>
    notMem_name (by decide) (by decide) hall
  cases h with
  | equity h =>
    simp only [makeEquity, except_mapError_eq_ok, except_map_eq_ok] at h
    obtain ⟨s, hs, rfl⟩ := h
    rw [Contract.hk, String.toList_append, List.mem_append, not_or]
    exact ⟨by decide, hname _ fun x hx => equitySymbol_mem hs hx⟩
  | option o =>
    have hroot : '\x02' ∉ o.underlying.toList :=
      hname _ fun x hx => .inl ((rootText_of_valid o.underlying_ok).2 x hx)
    have hright : '\x02' ∉ o.right.code.toList := by
      cases o.right <;> decide
    have hiso := separates_two.notMem_iso o.expiry
    have hstrike := separates_two.notMem_canon o.strike
    have hmult := notMem_nat separates_two o.multiplier_pos
    rw [TradeEngine.option_hk_toList, String.toList_append]
    simp only [List.mem_append, List.mem_cons, not_or]
    exact ⟨⟨⟨⟨⟨by decide, hroot⟩, by decide, hiso⟩, by decide, hstrike⟩, by decide, hright⟩, by decide, hmult⟩
  | future h =>
    rename_i f
    have hroot : '\x02' ∉ f.root.toList :=
      hname _ fun x hx => .inl ((Sim.root_alnum (parseFutureSymbol_root h)).2 x hx)
    have hmonth := separates_two.notMem_monthText f.contractMonth
    have htick := separates_two.notMem_canon f.tickSize
    have hpoint := separates_two.notMem_canon f.pointValue
    rw [future_hk_toList, String.toList_append]
    simp only [List.mem_append, List.mem_cons, not_or]
    exact ⟨⟨⟨⟨by decide, hroot⟩, by decide, hmonth⟩, by decide, htick⟩, by decide, hpoint⟩

/-- What the key of a combo holds of a leg. -/
def ComboLeg.text (l : ComboLeg) : List Char :=
  (toString l.ratio).toList ++ '\x01' :: (l.side.value.toList ++ '\x01' :: l.contract.hk.toList)

theorem combo_hk_toList (legs : List ComboLeg) :
    (Instrument.combo legs).hk.toList = 'C' :: legs.flatMap fun l => '\x02' :: l.text := by
  have hfold : ∀ (legs : List ComboLeg) (s : String), (legs.foldl (fun s l =>
      s ++ "\x02" ++ toString l.ratio ++ "\x01" ++ l.side.value ++ "\x01" ++ l.contract.hk) s).toList =
        s.toList ++ legs.flatMap fun l => '\x02' :: l.text := by
    intro legs
    induction legs with
    | nil => simp
    | cons l legs ih =>
      intro s
      rw [List.foldl_cons, ih]
      simp [ComboLeg.text, String.toList_append]
  rw [Instrument.hk, hfold]
  rfl

theorem side_value_injective : Function.Injective Side.value := by
  intro s s' h
  cases s <;> cases s' <;> simp_all [Side.value]

theorem ComboLeg.text_injective : Function.Injective ComboLeg.text := by
  intro l m h
  have hside : ∀ s : Side, '\x01' ∉ s.value.toList := by
    intro s
    cases s <;> decide
  obtain ⟨hratio, hrest⟩ := append_cons_inj (notMem_nat separates_one l.ratio_pos) (notMem_nat separates_one m.ratio_pos) h
  obtain ⟨hs, hc⟩ := append_cons_inj (hside _) (hside _) hrest
  have hr := pos_toString_injective l.ratio_pos m.ratio_pos hratio
  have hs := side_value_injective (String.toList_injective hs)
  exact ComboLeg.ext (Contract.hk_injective (String.toList_injective hc)) hr hs

theorem ComboLeg.notMem_text {l : ComboLeg} (h : l.contract.Made) : '\x02' ∉ l.text := by
  have hratio := notMem_nat separates_two l.ratio_pos
  have hside : '\x02' ∉ l.side.value.toList := by
    cases l.side <;> decide
  simp only [ComboLeg.text, List.mem_append, List.mem_cons, not_or]
  exact ⟨hratio, by decide, hside, by decide, h.notMem_hk⟩

/-! ## Instruments -/

theorem single_hk_ne_combo (c : Contract) (legs : List ComboLeg) : (Instrument.single c).hk ≠ (Instrument.combo legs).hk := by
  intro h
  have hhead := congrArg (fun s : String => s.toList.head?) h
  rw [Instrument.hk] at hhead
  simp only [combo_hk_toList, Contract.hk_letter] at hhead
  cases c <;> simp [Contract.letter] at hhead

theorem Instrument.hk_inj {i j : Instrument} (hi : i.Made) (hj : j.Made) (h : i.hk = j.hk) : i = j := by
  cases hi with
  | single hc =>
    cases hj with
    | single hd => rw [Contract.hk_injective h]
    | combo hne hlegs => exact absurd h (single_hk_ne_combo _ _)
  | combo hne hlegs =>
    cases hj with
    | single hd => exact absurd h.symm (single_hk_ne_combo _ _)
    | combo hne' hlegs' =>
      have htext := congrArg String.toList h
      rw [combo_hk_toList, combo_hk_toList] at htext
      have hfields := fields_inj (fun l hl => ComboLeg.notMem_text (hlegs l hl))
        (fun l hl => ComboLeg.notMem_text (hlegs' l hl)) (List.cons.inj htext).2
      rw [List.map_injective_iff.2 ComboLeg.text_injective hfields]

/-- Instruments share a key exactly when they are the same, and a book key names its account and its instrument. -/
theorem instrument_keys {i j : Instrument} (hi : i.Made) (hj : j.Made) :
    (i.hk = j.hk ↔ i.same j = true) ∧
      ∀ account other, bookHk account i = bookHk other j ↔ account = other ∧ i.same j = true := by
  have hsame : i.hk = j.hk ↔ i.same j = true := by
    rw [Instrument.same_iff]
    constructor
    · exact Instrument.hk_inj hi hj
    · intro h
      rw [h]
  refine ⟨hsame, fun account other => ?_⟩
  rw [← hsame]
  constructor
  · exact bookHk_inj
  · rintro ⟨rfl, hk⟩
    rw [bookHk, bookHk, hk]

theorem Sample.hundred_pos : (0 : Int) < 100 := by decide

/-- Shares against a written call. -/
def Sample.coveredCall : Instrument :=
  .combo [⟨.equity "AAPL", 100, .buy, Sample.hundred_pos⟩, ⟨.option Sample.call, 1, .sell, Int.one_pos⟩]

theorem instrument_keys_covered_call : Sample.coveredCall.Made ∧
    Sample.coveredCall.hk ≠ (Instrument.single (.option Sample.call)).hk ∧
    bookHk "one" Sample.coveredCall ≠ bookHk "two" Sample.coveredCall := by
  have hshares : (makeEquity " aapl").toOption = some (.equity "AAPL") := by decide +kernel
  have hcall : (Instrument.single (.option Sample.call)).Made := .single (.option _)
  have hmade : Sample.coveredCall.Made := by
    refine .combo (by simp) fun l hl => ?_
    simp only [List.mem_cons, List.not_mem_nil, or_false] at hl
    rcases hl with rfl | rfl
    · exact .equity (toOption_eq_some.1 hshares)
    · exact .option _
  refine ⟨hmade, ?_, ?_⟩
  · rw [Ne, (instrument_keys hmade hcall).1]
    decide +kernel
  · rw [Ne, (instrument_keys hmade hmade).2]
    decide +kernel

end TradeEngine
