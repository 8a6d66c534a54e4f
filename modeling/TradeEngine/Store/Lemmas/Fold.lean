import TradeEngine.Store.Reader
import TradeEngine.Ledger.Lemmas.Run

/-!
# What the incremental fold holds

Loading and applying rows either leaves the account's state at the fold of its rows or leaves no
state at all, and touches no other account.
-/

namespace TradeEngine

open Lib

variable {A : Arith}

/-! ## Rows -/

/-- One stored row into a state. -/
def foldRow (A : Arith) (st : AccountState) (r : StoredRow) : R AccountState := do
  applyEvent A st (← r.event)

def foldRows (A : Arith) (account : String) (rows : List StoredRow) : R AccountState :=
  rows.foldlM (foldRow A) (.new account)

theorem foldRows_append {account : String} {rows rows' : List StoredRow} {st st' : AccountState}
    (h : foldRows A account rows = .ok st) (h' : rows'.foldlM (foldRow A) st = .ok st') :
    foldRows A account (rows ++ rows') = .ok st' := by
  rw [foldRows] at h ⊢
  rw [List.foldlM_append, h]
  exact h'

theorem StoredRow.event_fields {r : StoredRow} {e : Event} (h : r.event = .ok e) :
    e.account = r.account ∧ e.seq = some (r.seq : Int) := by
  have hf := makeEvent_fields h
  simp [hf, StoredRow.account]

theorem foldRows_events {rows : List StoredRow} {st st' : AccountState}
    (h : rows.foldlM (foldRow A) st = .ok st') :
    ∃ evs, rows.mapM StoredRow.event = .ok evs ∧ evs.foldlM (applyEvent A) st = .ok st' := by
  induction rows generalizing st with
  | nil => exact ⟨[], rfl, h⟩
  | cons r rows ih =>
      simp only [List.foldlM_cons, bind_eq_ok, foldRow] at h
      obtain ⟨st₁, ⟨e, he, hst₁⟩, h⟩ := h
      obtain ⟨evs, hevs, hrun⟩ := ih h
      refine ⟨e :: evs, ?_, ?_⟩
      · simp [List.mapM_cons, he, hevs]
      · simp [hst₁, hrun]

theorem mapM_event_spec {rows : List StoredRow} {evs : List Event}
    (h : rows.mapM StoredRow.event = .ok evs) :
    evs.map (·.seq) = rows.map (fun r => some (r.seq : Int)) ∧
      evs.map (·.account) = rows.map (·.account) := by
  induction rows generalizing evs with
  | nil => cases h; exact ⟨rfl, rfl⟩
  | cons r rows ih =>
      simp only [List.mapM_cons, bind_eq_ok, pure_eq_ok] at h
      obtain ⟨e, he, rest, hrest, rfl⟩ := h
      obtain ⟨hseq, hacct⟩ := ih hrest
      obtain ⟨ha, hs⟩ := StoredRow.event_fields he
      exact ⟨by simp [hs, hseq], by simp [ha, hacct]⟩

/-! ## The fold of an account's own events -/

theorem foldSteps_of_run {evs : List Event} {a : String} {s : States} {st : AccountState}
    (hacct : ∀ e ∈ evs, e.account = a)
    (h : evs.foldlM (applyEvent A) ((s.get a).getD (.new a)) = .ok st) :
    ∃ s', evs.foldlM (foldStep A) s = .ok s' ∧ (s'.get a).getD (.new a) = st := by
  induction evs generalizing s with
  | nil => cases h; exact ⟨s, rfl, rfl⟩
  | cons e evs ih =>
      simp only [List.foldlM_cons, bind_eq_ok] at h
      obtain ⟨st₁, hst₁, h⟩ := h
      have he := hacct e List.mem_cons_self
      have hstep : foldStep A s e = .ok (s.put a st₁) := by
        simp [foldStep, he, hst₁]
      obtain ⟨s', hs', hget⟩ := ih (s := s.put a st₁)
        (fun x hx => hacct x (List.mem_cons_of_mem _ hx)) (by simpa using h)
      exact ⟨s', by simp [hstep, hs'], hget⟩

theorem ordered_of_sorted {evs : List Event}
    (h : evs.Pairwise fun e e' => e.seq.getD 0 ≤ e'.seq.getD 0) : ordered evs = evs := by
  unfold ordered
  split
  · exact List.Pairwise.insertionSort_eq h
  · rfl

/-- Rows of one account in `seq` order: the incremental fold is the fold of their events. -/
theorem foldAccount_of_foldRows {account : String} {rows : List StoredRow} {st : AccountState}
    (hord : rows.Pairwise fun r r' => r.seq < r'.seq) (hacct : ∀ r ∈ rows, r.account = account)
    (h : foldRows A account rows = .ok st) :
    ∃ evs, rows.mapM StoredRow.event = .ok evs ∧ foldAccount A evs account = .ok st := by
  obtain ⟨evs, hevs, hrun⟩ := foldRows_events h
  obtain ⟨hseq, haccts⟩ := mapM_event_spec hevs
  have hsorted : evs.Pairwise fun e e' => e.seq.getD 0 ≤ e'.seq.getD 0 := by
    have hs : (evs.map (·.seq)).Pairwise fun a b => a.getD 0 ≤ b.getD 0 := by
      rw [hseq, List.pairwise_map]
      exact hord.imp fun hlt => by simpa using Int.ofNat_le.mpr hlt.le
    rwa [List.pairwise_map] at hs
  have hmine : ∀ e ∈ evs, e.account = account := by
    intro e he
    have hmem : e.account ∈ rows.map (·.account) := haccts ▸ List.mem_map_of_mem he
    obtain ⟨r, hr, hre⟩ := List.mem_map.mp hmem
    exact hre ▸ hacct r hr
  have hfilter : evs.filter (·.account = account) = evs :=
    List.filter_eq_self.mpr fun e he => decide_eq_true (hmine e he)
  obtain ⟨s, hs, hget⟩ := foldSteps_of_run (s := .empty) hmine (by simpa using hrun)
  refine ⟨evs, hevs, ?_⟩
  have hfold : fold A ((ordered evs).filter (·.account = account)) = .ok s := by
    rw [fold, ordered_of_sorted hsorted, hfilter, ordered_of_sorted hsorted]
    exact hs
  simp only [foldAccount, bind_eq_ok, pure_eq_ok]
  exact ⟨s, hfold, hget⟩

/-! ## The incremental fold -/

namespace LedgerFold

@[simp] theorem get_put_self (f : LedgerFold) (a : String) (st : AccountState) :
    (f.put a st).entries.get a = some st := by simp [put]

theorem get_put_ne (f : LedgerFold) {a b : String} (st : AccountState) (h : b ≠ a) :
    (f.put a st).entries.get b = f.entries.get b := by simp [put, OMap.get_put_ne _ _ h]

@[simp] theorem get_drop_self (f : LedgerFold) (a : String) :
    (f.drop a).entries.get a = none := by simp [drop, OMap.get_remove]

theorem get_drop_ne (f : LedgerFold) {a b : String} (h : b ≠ a) :
    (f.drop a).entries.get b = f.entries.get b := by simp [drop, OMap.get_remove, h]

theorem get_of_has {f : LedgerFold} {a : String} (h : f.has a = true) :
    ∃ st, f.entries.get a = some st := Option.isSome_iff_exists.mp h

/-- Nothing but the state of account `a` differs. -/
structure Only (a : String) (f f' : LedgerFold) : Prop where
  atomic : f'.atomic = f.atomic
  others : ∀ b, b ≠ a → f'.entries.get b = f.entries.get b

theorem Only.refl (a : String) (f : LedgerFold) : Only a f f := ⟨rfl, fun _ _ => rfl⟩

theorem Only.trans {a : String} {f g h : LedgerFold} (hfg : Only a f g) (hgh : Only a g h) :
    Only a f h :=
  ⟨hgh.atomic.trans hfg.atomic, fun b hb => (hgh.others b hb).trans (hfg.others b hb)⟩

theorem Only.put (a : String) (f : LedgerFold) (st : AccountState) : Only a f (f.put a st) :=
  ⟨rfl, fun _ hb => get_put_ne f st hb⟩

theorem Only.drop (a : String) (f : LedgerFold) : Only a f (f.drop a) :=
  ⟨rfl, fun _ hb => get_drop_ne f hb⟩

/-- The account's state after rows were applied to `st`, or none after a refusal. -/
structure Applied (A : Arith) (a : String) (st : AccountState) (rows : List StoredRow)
    (f f' : LedgerFold) : Prop where
  only : Only a f f'
  state : ∃ st', rows.foldlM (foldRow A) st = .ok st' ∧ f'.entries.get a = some st'

structure Refused (a : String) (f f' : LedgerFold) : Prop where
  only : Only a f f'
  gone : f'.entries.get a = none

theorem applyRow_spec {a : String} {r : StoredRow} {f : LedgerFold} {st : AccountState}
    (hna : f.atomic = false) (hst : f.entries.get a = some st) :
    Prog.Post (fun _ f' => Applied A a st [r] f f') (fun _ f' => Refused a f f')
      (applyRow A a r f) := by
  unfold applyRow
  cases he : r.event with
  | error x => simpa [Prog.Post, hna] using (⟨Only.drop a f, get_drop_self f a⟩ : Refused a f _)
  | ok e =>
      simp only [apply, hst, Option.getD_some]
      cases hx : applyEvent A st e with
      | error x => simpa [Prog.Post, hna] using (⟨Only.drop a f, get_drop_self f a⟩ : Refused a f _)
      | ok st' => exact ⟨.put a f st', st', by simp [foldRow, he, hx], get_put_self f a st'⟩

theorem forEach_applyRow_spec {a : String} (rows : List StoredRow) {f : LedgerFold}
    {st : AccountState} (hna : f.atomic = false) (hst : f.entries.get a = some st) :
    Prog.Post (fun _ f' => Applied A a st rows f f') (fun _ f' => Only a f f')
      (Prog.forEach (applyRow A a) rows f) := by
  induction rows generalizing f st with
  | nil => exact ⟨.refl a f, st, rfl, hst⟩
  | cons r rows ih =>
      refine Prog.post_bind.mpr ((applyRow_spec hna hst).weaken ?_ fun _ _ h => h.only)
      rintro _ f₁ ⟨honly, st₁, hst₁, hget⟩
      simp only [List.foldlM_cons, List.foldlM_nil, bind_eq_ok, pure_eq_ok, exists_eq_right] at hst₁
      refine (ih (honly.atomic.trans hna) hget).weaken ?_ fun _ _ h => honly.trans h
      rintro _ f₂ ⟨honly₂, st₂, hst₂, hget₂⟩
      exact ⟨honly.trans honly₂, st₂, by simp [hst₁, hst₂], hget₂⟩

/-- Rows applied to a held state: all of them, or the account is gone. -/
theorem applyRows_spec {a : String} (rows : List StoredRow) {f : LedgerFold} {st : AccountState}
    (hna : f.atomic = false) (hst : f.entries.get a = some st) :
    Prog.Post (fun _ f' => Applied A a st rows f f') (fun _ f' => Refused a f f')
      (applyRows A a rows f) := by
  have h := forEach_applyRow_spec (A := A) rows hna hst
  unfold applyRows
  cases hx : Prog.forEach (applyRow A a) rows f with
  | mk res f' =>
      rw [hx] at h
      cases res with
      | error x => exact ⟨h.trans (.drop a f'), get_drop_self f' a⟩
      | ok u => exact h

/-- Loading gives the fold of the rows, or leaves no state. -/
theorem load_spec {a : String} {rows : List StoredRow} {f : LedgerFold} (hna : f.atomic = false) :
    Prog.Post (fun _ f' => Applied A a (.new a) rows f f') (fun _ f' => Refused a f f')
      (load A a rows f) := by
  have honly : Only a f ((f.drop a).put a (.new a)) := (Only.drop a f).trans (.put a _ _)
  have h := applyRows_spec (A := A) rows (honly.atomic.trans hna)
    (get_put_self (f.drop a) a (.new a))
  unfold load
  cases hx : applyRows A a rows ((f.drop a).put a (.new a)) with
  | mk res f' =>
      rw [hx] at h
      cases res with
      | error x => exact ⟨honly.trans h.only, h.gone⟩
      | ok u => exact ⟨honly.trans h.only, h.state⟩

end LedgerFold

end TradeEngine
