import TradeEngine.Ledger.Theorems
import TradeEngine.Store.Lemmas.Batch
import TradeEngine.Store.Lemmas.Refresh
import TradeEngine.Store.Lemmas.Outbox

/-!
# The store over whole runs

Statements about every sequence of batches on one connection, about every interleaving of a reader's
refreshes with the writer's commits, and about every run of enqueues and drains.
-/

namespace TradeEngine

open Lib

/-! ## Batches -/

/-- A failed batch changes no table; a successful one inserts exactly its new entries. -/
def BatchOutcome (c : Conn) (entries : List Entry) (r : Except LErr (List Event) × Conn) : Prop :=
  match r.1 with
  | .error _ => r.2.committed.events = c.committed.events ∧ r.2.committed.outbox = c.committed.outbox
  | .ok _ => c.committed.Inserted r.2.committed entries

/-- Every state held is the fold of its account's committed rows, in `seq` order. -/
def Conn.HoldsFolds (A : Arith) (c : Conn) : Prop :=
  ∀ account st, c.fold.entries.get account = some st →
    ∃ evs, (c.committed.rowsOf none account).mapM StoredRow.event = .ok evs ∧
      foldAccount A evs account = .ok st

theorem Conn.Coherent.holdsFolds {A : Arith} {c : Conn} (h : c.Coherent A) : c.HoldsFolds A :=
  fun a st hst => foldAccount_of_foldRows (c.committed.rowsOf_ordered none a)
    (fun _ hr => (Db.mem_rowsOf hr).2) (h.held a st hst)

/-- After any sequence of batches, wherever each of them failed, the next batch lands whole or not
at all, and the fold agrees with the log. -/
theorem writes_atomic_and_coherent (D : RustDecimal) (db : Db)
    (batches : List (Faults × List Entry)) (faults : Faults) (entries : List Entry) :
    let c := runBatches (.code D) (Conn.opened db) batches
    let r := write (.code D) faults entries c
    BatchOutcome c entries r ∧ r.2.HoldsFolds (.code D) := by
  intro c r
  have hspec := write_spec faults entries
    (runBatches_coherent batches (Conn.Coherent.opened (A := .code D) db))
  have hholds := (hspec.weaken (fun _ _ h => h.2) fun _ _ h => h.2).reached
  refine ⟨?_, hholds.holdsFolds⟩
  change Prog.Post _ _ r at hspec
  unfold BatchOutcome
  rcases hr : r with ⟨e | written, c'⟩
  all_goals rw [hr] at hspec
  · exact ⟨congrArg Db.events hspec.1, congrArg Db.outbox hspec.1⟩
  · exact hspec.1

/-! ## Refreshes -/

/-- The reader holds, for each account, the fold of a committed prefix of its events. -/
def ReadWorld.Exact (A : Arith) (w : ReadWorld) : Prop :=
  ∀ account st, w.store.fold.entries.get account = some st →
    ∃ rows evs, rows <+: w.db.rowsOf none account ∧ rows.mapM StoredRow.event = .ok evs ∧
      foldAccount A evs account = .ok st

theorem LedgerStore.Tracks.exact {A : Arith} {w : ReadWorld} (h : w.store.Tracks A w.db) :
    w.Exact A := by
  intro a st hst
  obtain ⟨rows, hpre, hfold⟩ := h.held a st hst
  obtain ⟨evs, hevs, hacct⟩ := foldAccount_of_foldRows
    ((w.db.rowsOf_ordered none a).sublist hpre.sublist)
    (fun r hr => (Db.mem_rowsOf (hpre.subset hr)).2) hfold
  exact ⟨rows, evs, hpre, hevs, hacct⟩

theorem LedgerStore.Tracks.openReader (A : Arith) (db : Db) :
    LedgerStore.openReader.Tracks A db where
  atomic := rfl
  reader := rfl
  held a st hst := by simp [LedgerStore.openReader, LedgerFold.new] at hst
  cursor a n st _ hst := by simp [LedgerStore.openReader, LedgerFold.new] at hst

theorem ReadWorld.QuietStep.tracks {A : Arith} {w w' : ReadWorld} (h : w.QuietStep A w')
    (hw : w.store.Tracks A w.db) : w'.store.Tracks A w'.db := by
  obtain ⟨s, hext, hquiet, rfl⟩ := h
  cases s with
  | commit db => exact hw.grow hext
  | ensure db account refresh faults => exact ensure_tracks hw hext hquiet

/-- While the writer never commits a row of an account between the two reads of its refresh, a
reader always holds each event of a committed prefix exactly once. -/
theorem reader_exact (D : RustDecimal) {db : Db} {w : ReadWorld}
    (h : Relation.ReflTransGen (ReadWorld.QuietStep (.code D)) ⟨db, .openReader⟩ w) :
    w.Exact (.code D) := by
  refine LedgerStore.Tracks.exact ?_
  induction h with
  | refl => exact .openReader _ db
  | tail _ hstep ih => exact hstep.tracks ih

namespace Sample

def depositOf (amount : Money) (command : String) : EventFields :=
  ⟨"acct", .cashFlow, .cashFlow ⟨amount⟩, noon, some command, 1, none⟩

/-- One deposit of 100 committed. -/
def firstDeposit : Db :=
  ⟨[⟨1, depositOf (units 100) "c1"⟩], [], 1, 0, by decide, by decide, by decide⟩

/-- A second deposit, of 50. -/
def bothDeposits : Db :=
  ⟨[⟨1, depositOf (units 100) "c1"⟩, ⟨2, depositOf (units 50) "c2"⟩], [], 2, 0, by decide, by decide,
    by decide⟩

theorem deposits_extend : firstDeposit.Extends bothDeposits := ⟨[_], rfl⟩

def noFaults : ReadFaults := fun _ => false

/-- A refresh before the second deposit. -/
def refreshedOnce : ReadWorld :=
  ReadStep.run (.code decimal) ⟨firstDeposit, .openReader⟩ (.ensure firstDeposit "acct" true noFaults)

/-- And one after it. -/
def refreshed : ReadWorld :=
  ReadStep.run (.code decimal) ⟨bothDeposits, refreshedOnce.store⟩
    (.ensure bothDeposits "acct" true noFaults)

/-- The second deposit lands between the two reads of the first refresh; then a second refresh. -/
def overtaken : ReadWorld :=
  ReadStep.run (.code decimal)
    (ReadStep.run (.code decimal) ⟨firstDeposit, .openReader⟩
      (.ensure bothDeposits "acct" true noFaults))
    (.ensure bothDeposits "acct" true noFaults)

end Sample

theorem reader_exact_deposits :
    Relation.ReflTransGen (ReadWorld.QuietStep (.code Sample.decimal))
      ⟨Sample.firstDeposit, .openReader⟩ Sample.refreshed ∧
    (Sample.refreshed.store.fold.entries.get "acct").isSome = true ∧
    Sample.refreshed.Exact (.code Sample.decimal) := by
  have hrun : Relation.ReflTransGen (ReadWorld.QuietStep (.code Sample.decimal))
      ⟨Sample.firstDeposit, .openReader⟩ Sample.refreshed := by
    have hfirst : ReadWorld.QuietStep (.code Sample.decimal) ⟨Sample.firstDeposit, .openReader⟩
        Sample.refreshedOnce :=
      ⟨.ensure Sample.firstDeposit "acct" true Sample.noFaults, List.prefix_refl _, fun _ _ => rfl,
        rfl⟩
    have hcommit : ReadWorld.QuietStep (.code Sample.decimal) Sample.refreshedOnce
        ⟨Sample.bothDeposits, Sample.refreshedOnce.store⟩ :=
      ⟨.commit Sample.bothDeposits, Sample.deposits_extend, trivial, rfl⟩
    have hsecond : ReadWorld.QuietStep (.code Sample.decimal)
        ⟨Sample.bothDeposits, Sample.refreshedOnce.store⟩ Sample.refreshed :=
      ⟨.ensure Sample.bothDeposits "acct" true Sample.noFaults, List.prefix_refl _, fun _ _ => rfl,
        rfl⟩
    exact .tail (.tail (.single hfirst) hcommit) hsecond
  exact ⟨hrun, by decide +kernel, reader_exact Sample.decimal hrun⟩

/-- A deposit committed between the two reads of a refresh is folded again by the next refresh: the
reader's cash is that of no prefix of the log. -/
theorem reader_doubles_overtaking_deposit :
    Relation.ReflTransGen (ReadWorld.Step (.code Sample.decimal))
      ⟨Sample.firstDeposit, .openReader⟩ Sample.overtaken ∧
    ¬ Sample.overtaken.Exact (.code Sample.decimal) := by
  refine ⟨.tail (.single ⟨.ensure Sample.bothDeposits "acct" true Sample.noFaults,
    Sample.deposits_extend, rfl⟩) ⟨.ensure Sample.bothDeposits "acct" true Sample.noFaults,
    List.prefix_refl _, rfl⟩, fun hexact => ?_⟩
  have hcash : (Sample.overtaken.store.fold.entries.get "acct").any
      (fun st => st.cash = Sample.units 200) = true := by decide +kernel
  have hnone : (Sample.overtaken.db.rowsOf none "acct").inits.all (fun rows =>
      ((rows.mapM StoredRow.event).toOption.bind fun evs =>
        (foldAccount (.code Sample.decimal) evs "acct").toOption).all
          fun st => st.cash ≠ Sample.units 200) = true := by decide +kernel
  rw [Option.any_eq_true] at hcash
  obtain ⟨st, hst, hcash⟩ := hcash
  obtain ⟨rows, evs, hpre, hevs, hfold⟩ := hexact "acct" st hst
  have hst' := List.all_eq_true.mp hnone rows (List.mem_inits _ _ |>.mpr hpre)
  rw [hevs] at hst'
  simp only [Except.toOption, Option.bind_some, hfold, Option.all_some] at hst'
  simp_all

/-! ## The outbox -/

/-- In every run of enqueues and drains, with every answer of the publishers and wherever a process
ended: what is published and what the tables become follows the rule of the outbox, and an
acknowledged item is in the table. -/
theorem outbox_in_order (D : RustDecimal) (commands : List Outbox.Command) :
    (Orderly Outbox.Allowed (Outbox.run (.code D) commands).trace ∧
      Outbox.tableAfter (Outbox.run (.code D) commands).trace =
        (Outbox.run (.code D) commands).db) ∧
    ∀ a w, Outbox.Acknowledges (.code D) a w := by
  have hsound := Outbox.run_sound (A := .code D) commands
  exact ⟨⟨hsound.orderly, hsound.current⟩, Outbox.arrive_acknowledges⟩

end TradeEngine
