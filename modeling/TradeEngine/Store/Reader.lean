import TradeEngine.Store.Model

/-!
# The read-only store

A reader holds its own fold and, for each account, the number up to which it believes to have folded.
A refresh reads the log twice, and the writer commits whenever it likes.
-/

namespace TradeEngine

open Lib

/-- The reads of `ensure`, at each of which it can fail. -/
inductive ReadPoint where
  | newest
  | rows
deriving DecidableEq, Repr

abbrev ReadFaults := ReadPoint → Bool

structure LedgerStore where
  fold : LedgerFold
  foldedAt : OMap String Nat
  reader : Bool

namespace LedgerStore

def openReader : LedgerStore := ⟨.new false, .empty, true⟩

/-- The newest number in the log, read by a refreshing reader only. -/
def newest (s : LedgerStore) (db : Db) (refresh : Bool) : Option Nat :=
  if s.reader && refresh then some (db.nextSeq - 1) else none

/-- Whether the account's rows are read at all. -/
def reads (s : LedgerStore) (db : Db) (account : String) (refresh : Bool) : Bool :=
  !s.fold.has account ||
    (s.reader && refresh && s.foldedAt.get account != s.newest db refresh)

/-- The cursor the rows are read from; `none` restarts the account. -/
def after (s : LedgerStore) (db : Db) (account : String) (refresh : Bool) : Option Nat :=
  (s.foldedAt.get account).filter fun n =>
    s.fold.has account && (s.newest db refresh).any (n < ·)

/-- Note how far the account is folded, after a refresh. -/
def noteCursor (s : LedgerStore) (account : String) (newest : Option Nat) : LedgerStore :=
  match newest with
  | some n => { s with foldedAt := s.foldedAt.put account n }
  | none => s

/-- Fold the rows the second read found: onto the held state, or from the start. -/
def applyRead (A : Arith) (account : String) (after : Option Nat) (rows : List StoredRow) :
    Prog LErr LedgerFold Unit :=
  if after.isSome then LedgerFold.applyRows A account rows else LedgerFold.load A account rows

/-- `LedgerStore::ensure`: the newest number is read from `first`, the rows from `second`. -/
def ensure (A : Arith) (first second : Db) (faults : ReadFaults) (account : String)
    (refresh : Bool) : Prog LErr LedgerStore Unit := do
  let s ← Prog.get
  if s.reader && refresh && faults .newest then Prog.fail hostFails
  else if s.reads first account refresh then do
    Prog.modify fun s => { s with foldedAt := s.foldedAt.remove account }
    let after := s.after first account refresh
    if faults .rows then Prog.fail hostFails
    else do
      Prog.zoom (·.fold) (fun f s => { s with fold := f })
        (applyRead A account after (second.rowsOf after account))
      Prog.modify (·.noteCursor account (s.newest first refresh))
  else pure ()

end LedgerStore

/-- The log grew by commits only. -/
def Db.Extends (db db' : Db) : Prop := db.events <+: db'.events

/-- A log and one reader of it. -/
structure ReadWorld where
  db : Db
  store : LedgerStore

/-- What happens next: the writer commits, or the reader ensures an account while the writer commits
between its two reads. -/
inductive ReadStep where
  | commit (db : Db)
  | ensure (db : Db) (account : String) (refresh : Bool) (faults : ReadFaults)

namespace ReadStep

/-- The log after the step. -/
def log : ReadStep → Db
  | .commit db => db
  | .ensure db .. => db

def run (A : Arith) (w : ReadWorld) : ReadStep → ReadWorld
  | .commit db => ⟨db, w.store⟩
  | .ensure db account refresh faults =>
    ⟨db, (LedgerStore.ensure A w.db db faults account refresh w.store).2⟩

/-- A refresh that reads an account's rows finds none committed since it read the newest number. -/
def Quiet (w : ReadWorld) : ReadStep → Prop
  | .commit _ => True
  | .ensure db account refresh _ =>
    refresh = true → w.store.reads w.db account refresh = true →
      db.rowsOf none account = w.db.rowsOf none account

end ReadStep

/-- One step over a growing log. -/
def ReadWorld.Step (A : Arith) (w w' : ReadWorld) : Prop :=
  ∃ s : ReadStep, w.db.Extends s.log ∧ w' = s.run A w

/-- One step in which no refresh is overtaken by the writer. -/
def ReadWorld.QuietStep (A : Arith) (w w' : ReadWorld) : Prop :=
  ∃ s : ReadStep, w.db.Extends s.log ∧ s.Quiet w ∧ w' = s.run A w

end TradeEngine
