import TradeEngine.Lib.Text
import TradeEngine.Ledger.Lemmas.Position

/-!
# The books of an account

What the positions of an account are worth at cost, and how one written position changes it.
Positions are filed under the text key of their contract, so the position a write replaces has the
same multiplier.
-/

namespace TradeEngine

open Lib

/-- The multiplier of an instrument, as a number. -/
def Instrument.mult (i : Instrument) : ℚ :=
  match i.multiplier with
  | .ok m => m
  | .error _ => 0

theorem Instrument.mult_eq {i : Instrument} {m : Int} (h : i.multiplier = .ok m) : i.mult = m := by
  simp [Instrument.mult, h]

/-- The signed cost of a position's lots, over its multiplier. -/
def Position.book (p : Position) : ℚ := p.instrument.mult * lotsBasis p.openLots

def bookValue (positions : OMap Instrument Position) : ℚ := positions.sumBy Position.book

/-- Every position is well-formed, of a contract with a multiplier, and filed under its key. -/
def PositionsOk (positions : OMap Instrument Position) : Prop :=
  ∀ e ∈ positions.items, e.2.2.Ok ∧
    ∃ c : Contract, e.2.2.instrument = .single c ∧ e.1 = c.hk ∧ ∃ m, c.multiplier = .ok m

/-! ## One key, one multiplier -/

theorem Contract.option_hk_toList (c : OptionContract) :
    ∃ l, (Contract.option c).hk.toList = l ++ '\x01' :: Nat.toDigits 10 c.multiplier.toNat := by
  have hm : c.multiplier = (c.multiplier.toNat : Int) :=
    (Int.toNat_of_nonneg c.multiplier_pos.le).symm
  refine ⟨("O\x01" ++ c.underlying ++ "\x01" ++ c.expiry.iso ++ "\x01" ++ c.strike.canon ++ "\x01" ++
      c.right.code).toList, ?_⟩
  rw [Contract.hk, hm, String.toList_append, toString_natCast_toList, String.toList_append,
    Int.toNat_natCast, List.append_assoc]
  rfl

theorem Contract.hk_head (c : Contract) : c.hk.toList.head? = some (match c with
    | .equity _ => 'E'
    | .option _ => 'O'
    | .future _ => 'F') := by
  cases c with
  | equity s => simp [Contract.hk]
  | option c => simp [Contract.hk, String.toList_append, List.append_assoc]
  | future f => simp [Contract.hk, String.toList_append, List.append_assoc]

/-- Contracts filed under one key have one multiplier. -/
theorem Contract.multiplier_of_hk {c d : Contract} {m n : Int} (h : c.hk = d.hk)
    (hc : c.multiplier = .ok m) (hd : d.multiplier = .ok n) : m = n := by
  have hh := congrArg (fun s => s.toList.head?) h
  simp only [Contract.hk_head] at hh
  cases c with
  | equity s =>
      cases d with
      | equity s' => simp only [Contract.multiplier, Except.ok.injEq] at hc hd; omega
      | option c' => simp at hh
      | future f => simp at hh
  | option c =>
      cases d with
      | equity s' => simp at hh
      | option c' =>
          obtain ⟨l, hl⟩ := Contract.option_hk_toList c
          obtain ⟨l', hl'⟩ := Contract.option_hk_toList c'
          rw [h, hl'] at hl
          have hm := number_of_append_eq (by decide) hl
          have h1 := c.multiplier_pos
          have h2 := c'.multiplier_pos
          simp only [Contract.multiplier, Except.ok.injEq] at hc hd
          omega
      | future f => simp at hh
  | future f => simp [Contract.multiplier, fe] at hc

/-! ## Writing one position -/

theorem PositionsOk.empty : PositionsOk .empty := by
  intro e he
  cases he

theorem PositionsOk.get {ps : OMap Instrument Position} (h : PositionsOk ps) {hk : String}
    {p : Position} (hp : ps.get hk = some p) : p.Ok := by
  obtain ⟨k, hk⟩ := OMap.mem_of_get hp
  exact (h _ hk).1

theorem PositionsOk.insert {ps : OMap Instrument Position} (h : PositionsOk ps) {c : Contract}
    {m : Int} (hc : c.multiplier = .ok m) {p : Position} (hp : p.Ok)
    (hi : p.instrument = .single c) (k : Instrument) : PositionsOk (ps.insert c.hk k p) := by
  intro e he
  rcases OMap.mem_insert he with ⟨hk, hv⟩ | ⟨he, -⟩
  · rw [hv]
    exact ⟨hp, c, hi, hk, m, hc⟩
  · exact h e he

/-- A written position changes the book by its new basis less the one it replaces. -/
theorem bookValue_insert {ps : OMap Instrument Position} (h : PositionsOk ps) {c : Contract}
    {m : Int} (hc : c.multiplier = .ok m) {p : Position} (hi : p.instrument = .single c)
    (k : Instrument) :
    bookValue (ps.insert c.hk k p) =
      bookValue ps + m * (lotsBasis p.openLots - basisOf (ps.get c.hk)) := by
  have hnew : p.book = m * lotsBasis p.openLots := by
    rw [Position.book, hi, Instrument.mult_eq (i := .single c) hc]
  unfold bookValue
  rw [OMap.sumBy_insert, hnew]
  cases hg : ps.get c.hk with
  | none =>
      simp only [Option.map_none, Option.getD_none, basisOf, Option.elim_none]
      ring
  | some q =>
      obtain ⟨k', hmem⟩ := OMap.mem_of_get hg
      obtain ⟨-, d, hd, hk, n, hn⟩ := h _ hmem
      have hmn : n = m := Contract.multiplier_of_hk hk.symm hn hc
      have hold : q.book = m * lotsBasis q.openLots := by
        rw [Position.book, show q.instrument = .single d from hd,
          Instrument.mult_eq (i := .single d) hn, hmn]
      simp only [Option.map_some, Option.getD_some, basisOf, Option.elim_some, hold]
      ring

end TradeEngine
