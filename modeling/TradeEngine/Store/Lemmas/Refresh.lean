import TradeEngine.Store.Lemmas.Fold

/-!
# Refreshes that are not overtaken

While no row of an account is committed between the two reads of a refresh, the account's cursor says
exactly which of its rows are folded.
-/

namespace TradeEngine

open Lib

variable {A : Arith}

/-! ## The log behind a cursor -/

theorem sorted_split {rows : List StoredRow} (h : rows.Pairwise fun r r' => r.seq < r'.seq)
    (n : Nat) : rows = rows.filter (·.seq ≤ n) ++ rows.filter (n < ·.seq) := by
  induction rows with
  | nil => rfl
  | cons r rows ih =>
      obtain ⟨hr, hrows⟩ := List.pairwise_cons.mp h
      by_cases hle : r.seq ≤ n
      · have hlt : ¬ n < r.seq := not_lt.mpr hle
        simp only [List.filter_cons, hle, hlt, decide_true, decide_false, if_true,
          Bool.false_eq_true, if_false, List.cons_append]
        rw [← ih hrows]
      · have hnone : rows.filter (·.seq ≤ n) = [] := by
          refine List.filter_eq_nil_iff.mpr fun x hx => ?_
          simpa using lt_trans (not_le.mp hle) (hr x hx)
        have hall : rows.filter (n < ·.seq) = rows := by
          refine List.filter_eq_self.mpr fun x hx => ?_
          simpa using lt_trans (not_le.mp hle) (hr x hx)
        simp [hle, hnone, hall, not_le.mp hle]

namespace Db

theorem rowsOf_ordered (db : Db) (after : Option Nat) (a : String) :
    (db.rowsOf after a).Pairwise fun r r' => r.seq < r'.seq := db.ordered.filter _

theorem mem_rowsOf {db : Db} {a : String} {r : StoredRow} (h : r ∈ db.rowsOf none a) :
    r ∈ db.events ∧ r.account = a := by
  simpa [rowsOf] using h

/-- The account's rows up to `n`. -/
def through (db : Db) (n : Nat) (a : String) : List StoredRow :=
  (db.rowsOf none a).filter (·.seq ≤ n)

theorem through_append (db : Db) (n : Nat) (a : String) :
    db.through n a ++ db.rowsOf (some n) a = db.rowsOf none a := by
  have hafter : db.rowsOf (some n) a = (db.rowsOf none a).filter (n < ·.seq) := by
    simp [rowsOf, List.filter_filter]
  rw [hafter]
  exact (sorted_split (db.rowsOf_ordered none a) n).symm

theorem le_foldl_max {l : List Nat} {m n : Nat} (h : n ∈ l ∨ n ≤ m) : n ≤ l.foldl max m := by
  induction l generalizing m with
  | nil => simpa using h
  | cons x l ih =>
      refine ih ?_
      rcases h with h | h
      · rcases List.mem_cons.mp h with rfl | h
        · exact Or.inr (le_max_right _ _)
        · exact Or.inl h
      · exact Or.inr (h.trans (le_max_left _ _))

theorem foldl_max_mem (l : List Nat) (m : Nat) : l.foldl max m ∈ l ∨ l.foldl max m = m := by
  induction l generalizing m with
  | nil => exact Or.inr rfl
  | cons x l ih =>
      rcases ih (max m x) with h | h
      · exact Or.inl (List.mem_cons_of_mem _ h)
      · rcases max_choice m x with hm | hm
        · exact Or.inr (h.trans hm)
        · exact Or.inl (by rw [List.foldl_cons, h, hm]; exact List.mem_cons_self)

theorem le_newest {db : Db} {r : StoredRow} (h : r ∈ db.events) : r.seq ≤ db.nextSeq - 1 :=
  le_foldl_max (Or.inl (List.mem_map_of_mem h))

theorem through_newest (db : Db) (a : String) : db.through (db.nextSeq - 1) a = db.rowsOf none a :=
  List.filter_eq_self.mpr fun _ hr => by simpa using le_newest (mem_rowsOf hr).1

/-- Rows committed later are numbered after everything committed before. -/
theorem Extends.newest_lt {db db' : Db} {rows : List StoredRow}
    (h : db'.events = db.events ++ rows) {r : StoredRow} (hr : r ∈ rows) :
    db.nextSeq - 1 < r.seq := by
  have hord := db'.ordered
  rw [h] at hord
  rcases foldl_max_mem (db.events.map (·.seq)) 0 with hm | hm
  · obtain ⟨x, hx, hxs⟩ := List.mem_map.mp hm
    have hlt := (List.pairwise_append.mp hord).2.2 x hx r hr
    simpa [nextSeq, ← hxs] using hlt
  · have hpos := (db'.numbered r (h ▸ List.mem_append_right _ hr)).1
    simpa [nextSeq, hm] using hpos

theorem Extends.rowsOf {db db' : Db} (h : db.Extends db') (a : String) :
    db.rowsOf none a <+: db'.rowsOf none a := by
  obtain ⟨rows, hrows⟩ := h
  exact ⟨rows.filter fun r => r.account = a, by simp [Db.rowsOf, ← hrows]⟩

theorem Extends.through {db db' : Db} (h : db.Extends db') {n : Nat} (hn : n ≤ db.nextSeq - 1)
    (a : String) : db'.through n a = db.through n a := by
  obtain ⟨rows, hrows⟩ := h
  have hnone : (rows.filter fun r => r.account = a).filter (·.seq ≤ n) = [] := by
    refine List.filter_eq_nil_iff.mpr fun r hr => ?_
    have hlt := newest_lt hrows.symm (List.mem_filter.mp hr).1
    simpa using lt_of_le_of_lt hn hlt
  simp only [Db.through, Db.rowsOf, ← hrows, List.filter_append]
  simpa using hnone

theorem Extends.newest_le {db db' : Db} (h : db.Extends db') :
    db.nextSeq - 1 ≤ db'.nextSeq - 1 := by
  obtain ⟨rows, hrows⟩ := h
  rcases foldl_max_mem (db.events.map (·.seq)) 0 with hm | hm
  · refine le_foldl_max (Or.inl ?_)
    rw [← hrows, List.map_append]
    exact List.mem_append_left _ hm
  · simp [nextSeq, hm]

end Db

/-! ## The reader's invariant -/

/-- What a reader holds of `db`: some prefix of the account's rows, and with a cursor exactly the
rows up to it. -/
structure LedgerStore.Tracks (A : Arith) (s : LedgerStore) (db : Db) : Prop where
  atomic : s.fold.atomic = false
  reader : s.reader = true
  held : ∀ a st, s.fold.entries.get a = some st →
    ∃ rows, rows <+: db.rowsOf none a ∧ foldRows A a rows = .ok st
  cursor : ∀ a n st, s.foldedAt.get a = some n → s.fold.entries.get a = some st →
    n ≤ db.nextSeq - 1 ∧ foldRows A a (db.through n a) = .ok st

theorem LedgerStore.Tracks.grow {s : LedgerStore} {db db' : Db} (h : s.Tracks A db)
    (hdb : db.Extends db') : s.Tracks A db' where
  atomic := h.atomic
  reader := h.reader
  held a st hst := by
    obtain ⟨rows, hrows, hfold⟩ := h.held a st hst
    exact ⟨rows, hrows.trans (hdb.rowsOf a), hfold⟩
  cursor a n st hn hst := by
    obtain ⟨hle, hfold⟩ := h.cursor a n st hn hst
    exact ⟨hle.trans hdb.newest_le, by rw [hdb.through hle]; exact hfold⟩

/-- The fold of one account replaced, its cursor removed. -/
theorem LedgerStore.Tracks.replace {s : LedgerStore} {db : Db} (h : s.Tracks A db) {a : String}
    {f : LedgerFold} (hf : LedgerFold.Only a s.fold f)
    (ha : ∀ st, f.entries.get a = some st →
      ∃ rows, rows <+: db.rowsOf none a ∧ foldRows A a rows = .ok st) :
    ({ s with fold := f, foldedAt := s.foldedAt.remove a } : LedgerStore).Tracks A db where
  atomic := hf.atomic.trans h.atomic
  reader := h.reader
  held b st hst := by
    by_cases hb : b = a
    · exact hb ▸ ha st (hb ▸ hst)
    · exact h.held b st (hf.others b hb ▸ hst)
  cursor b n st hn hst := by
    simp only [OMap.get_remove] at hn
    by_cases hb : b = a
    · simp [hb] at hn
    · rw [if_neg hb] at hn
      exact h.cursor b n st hn (hf.others b hb ▸ hst)

theorem LedgerStore.Tracks.note {s : LedgerStore} {db : Db} (h : s.Tracks A db) {a : String}
    {newest : Option Nat}
    (hn : ∀ n st, newest = some n → s.fold.entries.get a = some st →
      n ≤ db.nextSeq - 1 ∧ foldRows A a (db.through n a) = .ok st) :
    (s.noteCursor a newest).Tracks A db := by
  cases newest with
  | none => exact h
  | some n =>
      refine ⟨h.atomic, h.reader, h.held, fun b m st hm hst => ?_⟩
      simp only [noteCursor, OMap.get_put] at hm
      by_cases hb : b = a
      · subst hb
        simp only [if_true, Option.some.injEq] at hm
        subst hm
        exact hn n st rfl hst
      · rw [if_neg hb] at hm
        exact h.cursor b m st hm hst

/-- The rows that were applied, from the start or from the cursor, are all of the account's rows. -/
theorem LedgerStore.Tracks.applyRead {s : LedgerStore} {db db' : Db} (h : s.Tracks A db)
    {a : String} {refresh : Bool} (hquiet : refresh = true → db'.rowsOf none a = db.rowsOf none a) :
    Prog.Post
      (fun _ f => LedgerFold.Only a s.fold f ∧
        ∃ st, f.entries.get a = some st ∧ foldRows A a (db'.rowsOf none a) = .ok st)
      (fun _ f => LedgerFold.Refused a s.fold f)
      (LedgerStore.applyRead A a (s.after db a refresh) (db'.rowsOf (s.after db a refresh) a)
        s.fold) := by
  cases hafter : s.after db a refresh with
  | none =>
      refine (LedgerFold.load_spec h.atomic).weaken ?_ fun _ _ hr => hr
      rintro _ f ⟨honly, st, hst, hget⟩
      exact ⟨honly, st, hget, hst⟩
  | some n =>
      simp only [after, Option.filter_eq_some_iff, Bool.and_eq_true] at hafter
      obtain ⟨hn, hhas, hnew⟩ := hafter
      obtain ⟨st, hst⟩ := LedgerFold.get_of_has hhas
      have href : refresh = true := by
        by_contra hno
        simp [newest, hno] at hnew
      obtain ⟨-, hfold⟩ := h.cursor a n st hn hst
      refine (LedgerFold.applyRows_spec _ h.atomic hst).weaken ?_ fun _ _ hr => hr
      rintro _ f ⟨honly, st', hst', hget⟩
      refine ⟨honly, st', hget, ?_⟩
      have hthrough : db.through n a = db'.through n a := by
        simp only [Db.through, hquiet href]
      rw [← Db.through_append db' n a, ← hthrough]
      exact foldRows_append hfold hst'

theorem ensure_tracks {s : LedgerStore} {db db' : Db} (h : s.Tracks A db) (hdb : db.Extends db')
    {a : String} {refresh : Bool} {faults : ReadFaults}
    (hquiet : refresh = true → s.reads db a refresh = true →
      db'.rowsOf none a = db.rowsOf none a) :
    (LedgerStore.ensure A db db' faults a refresh s).2.Tracks A db' := by
  have hgrow := h.grow hdb
  have hkeep : ({ s with foldedAt := s.foldedAt.remove a } : LedgerStore).Tracks A db' :=
    hgrow.replace (.refl a s.fold) fun st hst => hgrow.held a st hst
  suffices Prog.Post (fun _ s' => s'.Tracks A db') (fun _ s' => s'.Tracks A db')
      (LedgerStore.ensure A db db' faults a refresh s) from this.reached
  refine Prog.post_bind.mpr (.get ?_)
  split
  · exact hgrow
  split
  · rename_i hreads
    refine Prog.post_bind.mpr ?_
    split
    · exact hkeep
    · refine Prog.post_bind.mpr (Prog.post_zoom.mpr
        ((h.applyRead fun href => hquiet href hreads).weaken ?_ fun _ f hr => ?_))
      · rintro _ f ⟨honly, st, hget, hfold⟩
        refine (hgrow.replace honly fun st' hst' => ?_).note fun n st' hn hst' => ?_
        · rw [hget] at hst'
          cases hst'
          exact ⟨_, List.prefix_refl _, hfold⟩
        · -- a refreshed cursor is the newest number, and no row of the account came after it
          have href : refresh = true := by
            by_contra hno
            simp [LedgerStore.newest, hno] at hn
          simp only [LedgerStore.newest, h.reader, href, Bool.and_self, if_true,
            Option.some.injEq] at hn
          simp only [hget, Option.some.injEq] at hst'
          subst hn hst'
          refine ⟨hdb.newest_le, ?_⟩
          rw [hdb.through le_rfl, Db.through_newest, ← hquiet href hreads]
          exact hfold
      · exact hgrow.replace hr.only fun st hst => by rw [hr.gone] at hst; cases hst
  · exact hgrow

end TradeEngine
