import TradeEngine.Lib.Program
import TradeEngine.Ledger.Fold

/-!
# The event store

The tables as one connection sees them, the incremental fold beside them, the batch write and the
reader's refresh. A payload column holds the value its text encodes.
-/

namespace TradeEngine

open Lib

/-! ## Tables -/

/-- A row of `events`: the columns, under the number the table gave them. -/
structure StoredRow where
  seq : Nat
  columns : EventFields

namespace StoredRow

def account (r : StoredRow) : String := r.columns.account

def command (r : StoredRow) : Option String := r.columns.commandId

/-- `event_from_row`: the row's event, with every check of its constructors. -/
def event (r : StoredRow) : R Event := makeEvent { r.columns with seq := some r.seq }

end StoredRow

inductive OutboxStatus where
  | pending
  | delivered
  | failed
deriving DecidableEq, Repr

structure OutboxRow where
  id : Nat
  eventSeq : Nat
  destination : String
  payload : String
  status : OutboxStatus
  attempts : Nat
  createdAt : DateTime
  lastError : Option String
  deliveredAt : Option DateTime
deriving DecidableEq

/-- The largest row number. -/
def maxRowid : Nat := 2 ^ 63 - 1

/-- The two tables and their AUTOINCREMENT counters. Rows stand in `seq` order, and the unique index
on command ids is a field. -/
structure Db where
  events : List StoredRow
  outbox : List OutboxRow
  sequence : Nat
  outboxSequence : Nat
  ordered : events.Pairwise fun r r' => r.seq < r'.seq
  numbered : ∀ r ∈ events, 0 < r.seq ∧ r.seq ≤ sequence
  unique_command : (events.filterMap StoredRow.command).Nodup

namespace Db

def empty : Db := ⟨[], [], 0, 0, by simp, by simp, by simp⟩

/-- `SELECT COALESCE(MAX(seq), 0) + 1 FROM events`. -/
def nextSeq (db : Db) : Nat := (db.events.map (·.seq)).foldl max 0 + 1

def byCommand (db : Db) (command : String) : Option StoredRow :=
  db.events.find? (·.command = some command)

/-- The rows after `after` of `account`, in `seq` order. -/
def rowsOf (db : Db) (after : Option Nat) (account : String) : List StoredRow :=
  db.events.filter fun r => after.all (· < r.seq) && r.account = account

def commands (db : Db) : List String := db.events.filterMap StoredRow.command

/-- Add a row under the next number. -/
def insertEvent (db : Db) (e : EventFields) : R (Db × StoredRow) :=
  if hc : ∃ c ∈ db.commands, e.commandId = some c then
    err .host "UNIQUE constraint failed: events.command_id"
  else if maxRowid ≤ db.sequence then err .host "database or disk is full"
  else
    let row : StoredRow := ⟨db.sequence + 1, e⟩
    .ok (⟨db.events ++ [row], db.outbox, db.sequence + 1, db.outboxSequence,
      by
        refine List.pairwise_append.mpr ⟨db.ordered, by simp, fun r hr r' hr' => ?_⟩
        rw [List.mem_singleton.mp hr']
        exact Nat.lt_succ_of_le (db.numbered r hr).2,
      by
        intro r hr
        rcases List.mem_append.mp hr with hr | hr
        · exact ⟨(db.numbered r hr).1, Nat.le_succ_of_le (db.numbered r hr).2⟩
        · rw [List.mem_singleton.mp hr]
          exact ⟨Nat.succ_pos _, le_rfl⟩,
      by
        rw [List.filterMap_append]
        refine List.nodup_append.mpr ⟨db.unique_command, ?_, ?_⟩
        · cases h : e.commandId <;> simp [row, StoredRow.command, h]
        · rintro c hcmem c' hc' rfl
          refine hc ⟨c, hcmem, ?_⟩
          simpa [row, StoredRow.command] using hc'⟩, row)

/-- Add a pending outbox row for a stored event. -/
def insertOutbox (db : Db) (seq : Nat) (destination payload : String) (createdAt : DateTime) :
    R Db := do
  refuseIf (¬ ∃ r ∈ db.events, r.seq = seq) .host "FOREIGN KEY constraint failed"
  refuseIf (∃ o ∈ db.outbox, o.eventSeq = seq ∧ o.destination = strip destination) .host
    "UNIQUE constraint failed: outbox.event_seq, outbox.destination"
  refuseIf (maxRowid ≤ db.outboxSequence) .host "database or disk is full"
  pure { db with
    outbox := db.outbox ++ [⟨db.outboxSequence + 1, seq, strip destination, payload, .pending, 0,
      createdAt, none, none⟩]
    outboxSequence := db.outboxSequence + 1 }

end Db

/-! ## The incremental fold -/

/-- One folded state per account. With `atomic` a refused event leaves the account as it was;
otherwise the refused account is dropped. -/
structure LedgerFold where
  atomic : Bool
  entries : OMap String AccountState

namespace LedgerFold

def new (atomic : Bool) : LedgerFold := ⟨atomic, .empty⟩

def has (f : LedgerFold) (account : String) : Bool := f.entries.contains account

def put (f : LedgerFold) (account : String) (st : AccountState) : LedgerFold :=
  { f with entries := f.entries.put account st }

def drop (f : LedgerFold) (account : String) : LedgerFold :=
  { f with entries := f.entries.remove account }

variable (A : Arith)

def apply (account : String) (e : Event) : Prog LErr LedgerFold Unit := fun f =>
  match applyEvent A ((f.entries.get account).getD (.new account)) e with
  | .ok st => (.ok (), f.put account st)
  | .error x => (.error x, if f.atomic && f.has account then f else f.drop account)

def applyRow (account : String) (r : StoredRow) : Prog LErr LedgerFold Unit := fun f =>
  match r.event with
  | .ok e => apply A account e f
  | .error x => (.error x, if f.atomic then f else f.drop account)

/-- A refusal drops the account. -/
def applyRows (account : String) (rows : List StoredRow) : Prog LErr LedgerFold Unit := fun f =>
  match Prog.forEach (applyRow A account) rows f with
  | (.ok (), f') => (.ok (), f')
  | (.error x, f') => (.error x, f'.drop account)

/-- Start (or restart) an account from its stored rows. -/
def load (account : String) (rows : List StoredRow) : Prog LErr LedgerFold Unit := fun f =>
  applyRows A account rows ((f.drop account).put account (.new account))

end LedgerFold

/-! ## The batch write -/

/-- The steps of a batch at which the host can fail. -/
inductive Point where
  | begin
  | command (i : Nat)
  | lookup (i : Nat)
  | replay (i : Nat)
  | account (i : Nat)
  | load (i : Nat)
  | encode (i : Nat)
  | insert (i : Nat)
  | apply (i : Nat)
  | outbox (i j : Nat)
  | commit
  | rollback
deriving DecidableEq, Repr

/-- A failing step raises; a failing statement may also have ended the transaction. -/
inductive Fault where
  | raises
  | ends
deriving DecidableEq, Repr

/-- Where a batch fails. -/
abbrev Faults := Point → Option Fault

structure Entry where
  event : Event
  outbox : List (String × String)

/-- The writer's connection: what is committed, the open transaction's view, and the fold. -/
structure Conn where
  committed : Db
  tx : Option Db
  fold : LedgerFold

def Conn.opened (db : Db) : Conn := ⟨db, none, .new false⟩

/-- The connection and the locals of one batch. -/
structure Writing extends Conn where
  touched : List String
  inTransaction : Bool
  written : List Event

namespace Writing

def start (c : Conn) : Writing := ⟨c, [], false, []⟩

/-- What a statement on this connection reads. -/
def view (w : Writing) : Db := w.tx.getD w.committed

end Writing

abbrev W (α : Type) := Prog LErr Writing α

section Write

variable (A : Arith) (faults : Faults)

def hostFails : LErr := ⟨.host, "the host step failed"⟩

/-- One host step: it goes through unless the batch fails here. -/
def point (p : Point) : W Unit := fun w =>
  match faults p with
  | none => (.ok (), w)
  | some .raises => (.error hostFails, w)
  | some .ends => (.error hostFails, { w with tx := none })

def setView (db : Db) : W Unit := .modify fun w =>
  match w.tx with
  | some _ => { w with tx := some db }
  | none => { w with committed := db }

def onFold (p : Prog LErr LedgerFold Unit) : W Unit :=
  .zoom (·.fold) (fun f w => { w with fold := f }) p

def beginImmediate : W Unit := do
  point faults .begin
  let w ← Prog.get
  Prog.lift (refuseIf w.tx.isSome .host "cannot start a transaction within a transaction")
  Prog.modify fun w => { w with tx := some w.committed, inTransaction := true }

/-- The stored row of an entry's command id, where it has one. -/
def lookup (i : Nat) (command : Option String) : W (Option StoredRow) :=
  match command with
  | none => pure none
  | some c => do
    point faults (.lookup i)
    Prog.gets fun w => w.view.byCommand c

def replay (i : Nat) (row : StoredRow) : W Unit := do
  point faults (.replay i)
  let e ← Prog.lift row.event
  Prog.modify fun w => { w with written := w.written ++ [e] }

/-- Fold the account's stored rows, unless its state is held. -/
def loadAccount (i : Nat) (account : String) : W Unit := do
  let w ← Prog.get
  if w.fold.has account then pure ()
  else do
    point faults (.load i)
    onFold (LedgerFold.load A account (w.view.rowsOf none account))

def insertRow (i : Nat) (e : EventFields) : W StoredRow := do
  point faults (.encode i)
  point faults (.insert i)
  let w ← Prog.get
  let stored ← Prog.lift (w.view.insertEvent e)
  setView stored.1
  pure stored.2

/-- Fold the stored row into its account, and note the event under its number. -/
def applyStored (i : Nat) (row : StoredRow) : W Unit := do
  onFold (LedgerFold.applyRow A row.account row)
  point faults (.apply i)
  let e ← Prog.lift row.event
  Prog.modify fun w => { w with written := w.written ++ [e] }

def insertItem (i : Nat) (row : StoredRow) (item : (String × String) × Nat) : W Unit := do
  point faults (.outbox i item.2)
  let w ← Prog.get
  let db ← Prog.lift (w.view.insertOutbox row.seq item.1.1 item.1.2 row.columns.tsUtc)
  setView db

/-- A new event: its account loaded, its row stored and folded, its outbox rows added. -/
def writeNew (i : Nat) (entry : Entry) : W Unit := do
  point faults (.account i)
  loadAccount A faults i entry.event.account
  Prog.modify fun w => { w with touched := entry.event.account :: w.touched }
  let row ← insertRow faults i entry.event.toEventFields
  applyStored A faults i row
  Prog.forEach (insertItem faults i row) entry.outbox.zipIdx

def writeEntry (i : Nat) (entry : Entry) : W Unit := do
  point faults (.command i)
  let stored ← lookup faults i entry.event.commandId
  match stored with
  | some row => replay faults i row
  | none => writeNew A faults i entry

def commit : W Unit := do
  point faults .commit
  let w ← Prog.get
  Prog.lift (refuseIf w.tx.isNone .host "cannot commit - no transaction is active")
  Prog.modify fun w => { w with committed := w.view, tx := none, inTransaction := false }

def rollback : W Unit := do
  point faults .rollback
  let w ← Prog.get
  Prog.lift (refuseIf w.tx.isNone .host "cannot rollback - no transaction is active")
  Prog.modify fun w => { w with tx := none }

def writeBody (entries : List Entry) : W Unit := do
  beginImmediate faults
  Prog.forEach (fun item => writeEntry A faults item.2 item.1) entries.zipIdx
  commit faults

/-- Drop every account the failed batch touched, and roll back what it began. -/
def abandon (e : LErr) (w : Writing) : Except LErr (List Event) × Conn :=
  let w := { w with fold := w.touched.foldl .drop w.fold }
  if w.inTransaction then
    match rollback faults w with
    | (.ok (), w) => (.error e, w.toConn)
    | (.error x, w) => (.error x, w.toConn)
  else (.error e, w.toConn)

/-- `Store::write`, every failure being an ordinary exception. -/
def write (entries : List Entry) : Prog LErr Conn (List Event) := fun c =>
  if entries.any (·.event.seq.isSome) then
    (err .value "Event.seq is assigned by the ledger; pass seq=None to append", c)
  else
    match writeBody A faults entries (.start c) with
    | (.ok (), w) => (.ok w.written, w.toConn)
    | (.error e, w) => abandon faults e w

end Write

/-- Batches one after another, each with its own failures; the caller goes on after an error. -/
def runBatches (A : Arith) (c : Conn) (batches : List (Faults × List Entry)) : Conn :=
  batches.foldl (fun c b => (write A b.1 b.2 c).2) c

end TradeEngine
