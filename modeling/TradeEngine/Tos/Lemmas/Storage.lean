import TradeEngine.Store.Lemmas.Batch
import TradeEngine.Tos.Session

/-!
# The session's ledger and the store

A session appends through the store. Whatever the store does with a batch, committing it or failing
anywhere, is one of the ways the session's append may end, and the ledger is then what the tables hold.
-/

namespace TradeEngine.Tos.Session

open Lib

variable {A : Arith} {base db db' : Db} {l : Ledger} {w w' : Writing} {entry : TradeEngine.Entry}

/-! ## What the tables hold -/

/-- The ledger that a store holds: the events of its rows, numbered without a gap, and for each account
the fold of its own. -/
structure Ledger.HeldBy (A : Arith) (db : Db) (l : Ledger) : Prop where
  rows : db.events.mapM StoredRow.event = .ok l.rows
  numbered : db.events.map (·.seq) = List.range' 1 l.rows.length
  sequence : db.sequence = l.rows.length
  states : ∀ account, foldRows A account (db.rowsOf none account) = .ok (l.stateOf account)

theorem Ledger.HeldBy.opened : Ledger.HeldBy A .empty .opened := ⟨rfl, rfl, rfl, fun _ => rfl⟩

theorem find_command {rows : List StoredRow} {evs : List Event} (h : rows.mapM StoredRow.event = .ok evs)
    (c : String) :
    match rows.find? (·.command = some c) with
    | some row => ∃ e, row.event = .ok e ∧ evs.find? (·.commandId = some c) = some e
    | none => evs.find? (·.commandId = some c) = none := by
  induction rows generalizing evs with
  | nil =>
      cases h
      rfl
  | cons r rows ih =>
      simp only [List.mapM_cons, bind_eq_ok, pure_eq_ok] at h
      obtain ⟨e, he, rest, hrest, rfl⟩ := h
      have hcommand : e.commandId = r.command := by rw [makeEvent_fields he, StoredRow.command]
      by_cases hc : r.command = some c
      · rw [List.find?_cons_of_pos (by simpa using hc), List.find?_cons_of_pos (by simpa [hcommand] using hc)]
        exact ⟨e, he, rfl⟩
      · rw [List.find?_cons_of_neg (by simpa using hc), List.find?_cons_of_neg (by simpa [hcommand] using hc)]
        exact ih hrest

theorem Ledger.HeldBy.stored (h : l.HeldBy A db) (command : Option String) :
    match command.bind db.byCommand with
    | some row => ∃ e, row.event = .ok e ∧ l.stored command = some e
    | none => l.stored command = none := by
  cases command with
  | none => rfl
  | some c => exact find_command h.rows c

theorem Ledger.HeldBy.kept (h : l.HeldBy A db) (hevents : db'.events = db.events)
    (hsequence : db'.sequence = db.sequence) : l.HeldBy A db' where
  rows := hevents ▸ h.rows
  numbered := hevents ▸ h.numbered
  sequence := hsequence ▸ h.sequence
  states account := by
    rw [Db.rowsOf_congr hevents]
    exact h.states account

theorem Ledger.HeldBy.add {row : StoredRow} {e : Event} {st : AccountState} (h : l.HeldBy A db)
    (hevents : db'.events = db.events ++ [row]) (hseq : row.seq = db.sequence + 1)
    (hsequence : db'.sequence = db.sequence + 1) (he : row.event = .ok e)
    (hst : applyEvent A (l.stateOf e.account) e = .ok st) :
    Ledger.HeldBy A db' ⟨l.rows ++ [e], l.states.put e.account st⟩ where
  rows := by
    rw [hevents, List.mapM_append, h.rows]
    simp [he]
  numbered := by
    rw [hevents, List.map_append, h.numbered, List.map_singleton, hseq, h.sequence, List.length_append,
      List.length_singleton, List.range'_concat, one_mul, Nat.add_comm 1]
  sequence := by rw [hsequence, h.sequence, List.length_append, List.length_singleton]
  states account := by
    have haccount : e.account = row.account := (StoredRow.event_fields he).1
    rw [Db.rowsOf_snoc hevents, Ledger.stateOf]
    by_cases heq : row.account = account
    · subst heq
      rw [if_pos rfl, haccount, OMap.get_put_self, Option.getD_some]
      refine foldRows_append (h.states _) ?_
      rw [haccount] at hst
      simp [foldRow, he, hst]
    · rw [if_neg heq, List.append_nil, haccount, OMap.get_put_ne _ _ (Ne.symm heq)]
      exact h.states account

theorem Ledger.HeldBy.last_step {row : StoredRow} {e : Event} {st : AccountState} (h : l.HeldBy A db)
    (hevents : db'.events = db.events ++ [row]) (he : row.event = .ok e)
    (hfold : foldRows A row.account (db'.rowsOf none row.account) = .ok st) :
    applyEvent A (l.stateOf e.account) e = .ok st := by
  rw [Db.rowsOf_snoc hevents, if_pos rfl, foldRows, List.foldlM_append] at hfold
  obtain ⟨before, hbefore, hlast⟩ := bind_eq_ok.mp hfold
  cases (h.states row.account).symm.trans hbefore
  simp only [List.foldlM_cons, List.foldlM_nil, bind_eq_ok, pure_eq_ok, exists_eq_right, foldRow] at hlast
  obtain ⟨e', he', hlast⟩ := hlast
  cases he.symm.trans he'
  rwa [(StoredRow.event_fields he).1]

/-! ## Batches -/

theorem Noted.ledger (h : l.HeldBy A db) (hmid : Mid A base db' w') (hins : db.Inserted db' [entry])
    (hnoted : Noted db entry w w') :
    ∃ l', Ledger.write A (l, w.written.map (·.payload)) entry.event = .ok (l', w'.written.map (·.payload)) ∧
      l'.HeldBy A db' := by
  obtain ⟨e, hwritten, hnoted⟩ := hnoted
  have hstored := h.stored entry.event.commandId
  unfold Ledger.write
  rw [hwritten, List.map_append, List.map_singleton]
  cases hfound : entry.event.commandId.bind db.byCommand with
  | some row =>
      simp only [hfound] at hstored hnoted
      obtain ⟨e', he', hl⟩ := hstored
      cases he'.symm.trans hnoted
      have hnew := newEntries_single_of_some hfound
      refine ⟨l, ?_, h.kept ?_ ?_⟩
      · simp only [hl, pure_eq_ok]
      · rw [hins.events, hnew]
        exact List.append_nil _
      · rw [hins.sequence, hnew]
        rfl
  | none =>
      simp only [hfound] at hstored hnoted
      obtain ⟨hhas, he⟩ := hnoted
      have hnew := newEntries_single_of_none hfound
      have hevents : db'.events = db.events ++ [⟨db.sequence + 1, entry.event.toEventFields⟩] := by
        rw [hins.events, hnew]
        rfl
      obtain ⟨st, hst⟩ := LedgerFold.get_of_has hhas
      have hstep := h.last_step hevents he (hmid.held _ _ hst)
      have hrow : makeEvent { entry.event.toEventFields with seq := some (l.rows.length + 1) } = .ok e := by
        rw [← he, StoredRow.event, h.sequence]
        rfl
      refine ⟨⟨l.rows ++ [e], l.states.put e.account st⟩, ?_, h.add hevents rfl ?_ he hstep⟩
      · simp only [hstored, hrow, bind_eq_ok, pure_eq_ok, Except.ok.injEq]
        exact ⟨e, rfl, st, hstep, rfl⟩
      · rw [hins.sequence, hnew]
        rfl

theorem writeEntries_held {faults : TradeEngine.Faults} {entries : List TradeEngine.Entry} (n : Nat) (h : Mid A base db w)
    (hl : l.HeldBy A db) :
    Prog.Post (fun _ w' => ∃ db' l', Mid A base db' w' ∧ l'.HeldBy A db' ∧
        (entries.map (·.event)).foldlM (Ledger.write A) (l, w.written.map (·.payload)) =
          .ok (l', w'.written.map (·.payload)))
      (fun _ => Failing A base)
      (Prog.forEach (fun item => writeEntry A faults item.2 item.1) (entries.zipIdx n) w) := by
  induction entries generalizing n db l w with
  | nil => exact ⟨db, l, h, hl, rfl⟩
  | cons x rest ih =>
      refine Prog.post_bind.mpr ((writeEntry_post h).weaken ?_ fun _ _ hf => hf)
      rintro _ w₁ ⟨db₁, h₁, hins, hnoted⟩
      obtain ⟨l₁, hwrite, hl₁⟩ := Noted.ledger hl h₁ hins hnoted
      refine (ih (n + 1) h₁ hl₁).weaken ?_ fun _ _ hf => hf
      rintro _ w₂ ⟨db₂, l₂, h₂, hl₂, hrest⟩
      exact ⟨db₂, l₂, h₂, hl₂, by rw [List.map_cons, List.foldlM_cons, hwrite]; exact hrest⟩

/-- A batch the store commits is one the ledger takes, with the same events; a batch it fails changes no
table. -/
theorem write_held (faults : TradeEngine.Faults) (entries : List TradeEngine.Entry) {c : Conn} (h : c.Coherent A)
    (hl : l.HeldBy A c.committed) :
    Prog.Post (fun written c' => ∃ l', l'.HeldBy A c'.committed ∧
        (entries.map (·.event)).foldlM (Ledger.write A) (l, []) = .ok (l', written.map (·.payload)))
      (fun _ c' => c'.committed = c.committed) (TradeEngine.write A faults entries c) := by
  unfold TradeEngine.write
  split
  · rfl
  · have hbody : Prog.Post (fun _ w => ∃ l', l'.HeldBy A w.committed ∧
        (entries.map (·.event)).foldlM (Ledger.write A) (l, []) = .ok (l', w.written.map (·.payload)))
        (fun _ => Failing A c.committed) (writeBody A faults entries (Writing.start c)) := by
      refine Prog.post_bind.mpr ((beginImmediate_post h).weaken ?_ fun _ _ hf => hf)
      rintro _ w₁ ⟨h₁, hnone⟩
      refine Prog.post_bind.mpr ((writeEntries_held 0 h₁ hl).weaken ?_ fun _ _ hf => hf)
      rintro _ w₂ ⟨db, l', h₂, hl', hrun⟩
      rw [hnone] at hrun
      refine (commit_post h₂).weaken ?_ fun _ _ hf => hf
      rintro _ w₃ ⟨rfl, -, hwritten⟩
      exact ⟨l', hl', hwritten.symm ▸ hrun⟩
    split
    · rename_i w hw
      rw [hw] at hbody
      exact hbody
    · rename_i e w hw
      rw [hw] at hbody
      obtain ⟨x, c', hx, hcommitted, -⟩ := abandon_spec faults e hbody
      rw [hx]
      exact hcommitted

/-! ## Appends -/

theorem extend_congr {disk disk' : Disk} {s : State} (h : disk s.appends = disk' s.appends) (events : List Event) :
    extend A disk events s = extend A disk' events s := by
  simp only [extend, Nat.add_sub_cancel, h]

theorem extend_appends (disk : Disk) (events : List Event) (s : State) :
    (extend A disk events s).2.appends = s.appends + 1 := by
  unfold extend
  dsimp only
  split <;> rfl

/-- A batch of the store is one append of the session, under some ending: the tables hold the ledger
after it too. -/
theorem extend_held (faults : TradeEngine.Faults) (entries : List TradeEngine.Entry) {c : Conn} {s : State}
    (h : c.Coherent A) (hl : s.ledger.HeldBy A c.committed) :
    ∃ ending : Ending, (extend A (fun _ => ending) (entries.map (·.event)) s).2.ledger.HeldBy A
      (TradeEngine.write A faults entries c).2.committed := by
  have hwrite := write_held faults entries h hl
  rcases hrun : TradeEngine.write A faults entries c with ⟨e | written, c'⟩
  · rw [hrun] at hwrite
    refine ⟨.fails (.ofErr e), ?_⟩
    rw [show c'.committed = c.committed from hwrite]
    exact hl
  · rw [hrun] at hwrite
    obtain ⟨l', hl', hfold⟩ := hwrite
    refine ⟨.commits, ?_⟩
    simp only [extend, hfold]
    exact hl'

def appendAll (A : Arith) (disk : Disk) (batches : List (List Event)) (s : State) : State :=
  batches.foldl (fun s events => (extend A disk events s).2) s

theorem appendAll_congr {disk disk' : Disk} (batches : List (List Event)) {s : State}
    (h : ∀ n, s.appends ≤ n → disk n = disk' n) : appendAll A disk batches s = appendAll A disk' batches s := by
  induction batches generalizing s with
  | nil => rfl
  | cons events rest ih =>
      have hfirst := extend_congr (A := A) (h s.appends le_rfl) events
      have hlater : ∀ n, (extend A disk' events s).2.appends ≤ n → disk n = disk' n := by
        intro n hn
        rw [extend_appends] at hn
        exact h n (by omega)
      have hrest := ih hlater
      rw [appendAll, List.foldl_cons, hfirst]
      exact hrest

theorem appendAll_held {batches : List (TradeEngine.Faults × List TradeEngine.Entry)} {c : Conn} {s : State}
    (h : c.Coherent A) (hl : s.ledger.HeldBy A c.committed) :
    ∃ disk : Disk, (appendAll A disk (batches.map fun b => b.2.map (·.event)) s).ledger.HeldBy A
      (runBatches A c batches).committed := by
  induction batches generalizing c s with
  | nil => exact ⟨fun _ => .commits, hl⟩
  | cons b rest ih =>
      obtain ⟨ending, hfirst⟩ := extend_held b.1 b.2 h hl
      have hcoherent := ((write_spec b.1 b.2 h).weaken (fun _ _ h => h.2) fun _ _ h => h.2).reached
      obtain ⟨disk, hrest⟩ := ih hcoherent hfirst
      -- the first append ends as the store's first batch did, and the later ones as `disk` says
      refine ⟨fun n => if n = s.appends then ending else disk n, ?_⟩
      have hsame : extend A (fun n => if n = s.appends then ending else disk n) (b.2.map (·.event)) s =
          extend A (fun _ => ending) (b.2.map (·.event)) s := extend_congr (if_pos rfl) _
      rw [List.map_cons, appendAll, List.foldl_cons, hsame]
      have hlater : ∀ n, (extend A (fun _ => ending) (b.2.map (·.event)) s).2.appends ≤ n →
          (if n = s.appends then ending else disk n) = disk n := by
        intro n hn
        rw [extend_appends] at hn
        exact if_neg (by omega)
      have hagree := appendAll_congr (A := A) (rest.map fun b => b.2.map (·.event)) hlater
      rw [appendAll] at hagree
      rw [hagree]
      exact hrest

end TradeEngine.Tos.Session
