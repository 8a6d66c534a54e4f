import TradeEngine.Lib.Trace
import TradeEngine.Store.Model

/-!
# The outbox

The outbox statements, the FIFO drain of one destination, and runs of enqueues and drains. What stands
outside the store (the publisher, its clock, how a transaction ends) is given call by call. A
transaction is there whole or not at all, and drains do not nest; enqueues may come at any call.
-/

namespace TradeEngine

open Lib

/-! ## Statements -/

namespace Db

/-- `pending_outbox`: the rows in `id` order, of one destination or of all. -/
def pendingOutbox (db : Db) (destination : Option String) (includeFailed : Bool) : List OutboxRow :=
  (db.outbox.filter fun r => destination.all (r.destination = ·) &&
    if includeFailed then r.status ≠ .delivered else r.status = .pending).insertionSort
      fun r r' => r.id ≤ r'.id

/-- `UPDATE outbox SET .. WHERE id = ?`. -/
def updateOutbox (db : Db) (id : Nat) (f : OutboxRow → OutboxRow) : Db :=
  { db with outbox := db.outbox.map fun r => if r.id = id then f r else r }

def deliverOutbox (db : Db) (id : Nat) (timestamp : DateTime) : Db :=
  db.updateOutbox id fun r => { r with status := .delivered, deliveredAt := some timestamp }

def failOutbox (db : Db) (id : Nat) (error : String) : Db :=
  db.updateOutbox id fun r =>
    { r with status := .failed, attempts := r.attempts + 1, lastError := some error }

def eventTimestamp (db : Db) (seq : Nat) : Option DateTime :=
  (db.events.find? (·.seq = seq)).map (·.columns.tsUtc)

end Db

namespace Outbox

/-! ## The world around the store -/

/-- What a call outside raises: an exception with its text, one whose text raises in turn, or what is
no exception, an interrupt or the end of the process. -/
inductive Raised where
  | exception (text : String)
  | unreadable (e : Raised)
  | interrupt
deriving DecidableEq, Repr

/-- How a transaction ends: committed, refused with nothing done, or cut off together with the
process, before its commit or after it. -/
inductive Fate where
  | commits
  | refused (e : Raised)
  | cutOff (done : Bool)
deriving DecidableEq, Repr

inductive Happening where
  | table (db : Db)
  | published (item : OutboxRow)
  | confirmed (item : OutboxRow)

/-- The tables, the number of the next call outside, and what has happened so far. -/
structure World where
  db : Db
  tick : Nat
  trace : List Happening

def World.empty : World := ⟨.empty, 0, []⟩

abbrev P (α : Type) := Prog Raised World α

def happens (h : Happening) : P Unit := .modify fun w => { w with trace := w.trace ++ [h] }

def setTable (db : Db) : P Unit := .modify fun w => { w with db, trace := w.trace ++ [.table db] }

def raised (e : LErr) : Raised := .exception e.msg

/-- `outbox_transaction` around one statement. -/
def transaction (fate : Fate) (statement : Db → R Db) : P Unit := do
  let w ← Prog.get
  match fate, statement w.db with
  | .commits, .ok db => setTable db
  | .commits, .error e => Prog.fail (raised e)
  | .refused e, _ => Prog.fail e
  | .cutOff true, .ok db => do
    setTable db
    Prog.fail .interrupt
  | .cutOff _, _ => Prog.fail .interrupt

/-! ## Enqueues -/

/-- Items arrive with the events of a batch, or one by one for an event that is stored. -/
inductive Arrival where
  | batch (faults : Faults) (entries : List Entry)
  | enqueue (fate : Fate) (seq : Nat) (destination payload : String) (createdAt : Option DateTime)

section Run

variable (A : Arith)

def enqueue (fate : Fate) (seq : Nat) (destination payload : String)
    (createdAt : Option DateTime) : P Unit := do
  let w ← Prog.get
  match w.db.eventTimestamp seq with
  | none => Prog.fail (.exception s!"Unknown event sequence {seq}")
  | some ts => transaction fate fun db =>
    (db.insertOutbox seq destination payload (createdAt.getD ts)).mapError fun e =>
      { e with msg :=
          s!"Outbox entry violates constraint (e.g. duplicate or missing foreign key): {e.msg}" }

def arrive : Arrival → P Unit
  | .batch faults entries => do
    let w ← Prog.get
    let r := write A faults entries (.opened w.db)
    setTable r.2.committed
    match r.1 with
    | .ok _ => pure ()
    | .error e => Prog.fail (raised e)
  | .enqueue fate seq destination payload createdAt => enqueue fate seq destination payload createdAt

/-! ## The drain -/

/-- What each numbered call outside does; `arrivals` is what is enqueued meanwhile. -/
structure Host where
  destination : String
  arrivals : Nat → List Arrival
  reads : Nat → Option Raised
  publishes : Nat → OutboxRow → Except Raised Bool
  names : Nat → Option Raised
  now : Nat → Except Raised DateTime
  marks : Nat → Fate
  replaces : Nat → Option Raised

variable (H : Host)

/-- One call outside: its number, once what arrives meanwhile is in. -/
def call : P Nat := do
  let w ← Prog.get
  Prog.modify fun w => { w with tick := w.tick + 1 }
  Prog.forEach (fun a => discard (Prog.attempt (arrive A a))) (H.arrivals w.tick)
  pure w.tick

def raises : Option Raised → P Unit
  | none => pure ()
  | some e => Prog.fail e

def pending : P (List OutboxRow) := do
  let n ← call A H
  raises (H.reads n)
  Prog.gets fun w => w.db.pendingOutbox (some (strip H.destination)) true

def publish (item : OutboxRow) : P Bool := do
  happens (.published item)
  let n ← call A H
  let confirmed ← Prog.lift (H.publishes n item)
  if confirmed then happens (.confirmed item)
  pure confirmed

def delivered (item : OutboxRow) : P Unit := do
  let n ← call A H
  let timestamp ← Prog.lift (H.now n)
  let n ← call A H
  transaction (H.marks n) fun db => .ok (db.deliverOutbox item.id timestamp)

def failed (item : OutboxRow) (error : String) : P OutboxRow := do
  let n ← call A H
  transaction (H.marks n) fun db => .ok (db.failOutbox item.id error)
  let n ← call A H
  raises (H.replaces n)
  pure { item with status := .failed, attempts := item.attempts + 1, lastError := some error }

def exceptionMessage : Raised → Except Raised (Option String)
  | .exception text => .ok (some text)
  | .unreadable e => .error e
  | .interrupt => .ok none

def destination : P String := do
  let n ← call A H
  raises (H.names n)
  pure H.destination

structure Drained where
  count : Nat
  failed : Option OutboxRow
  error : Option String
  remaining : Nat
deriving DecidableEq

/-- Publish one item and mark it. -/
def deliver (item : OutboxRow) : P (Option (OutboxRow × String)) := do
  if ← publish A H item then
    delivered A H item
    pure none
  else
    let name ← destination A H
    let message := s!"Delivery unconfirmed by sink {name}"
    let failure ← failed A H item message
    pure (some (failure, message))

/-- The failure of one item, where it has one: delivery, clock, mark and replacement errors are caught
together. -/
def failure (item : OutboxRow) : P (Option (OutboxRow × String)) := do
  match ← Prog.attempt (deliver A H item) with
  | .ok value => pure value
  | .error e =>
    match ← Prog.lift (exceptionMessage e) with
    | none => Prog.fail e
    | some detail =>
      let name ← destination A H
      let message := s!"Sink {name} raised: {detail}"
      let failure ← failed A H item message
      pure (some (failure, message))

def drainItems (result : Drained) : List OutboxRow → P Drained
  | [] => pure result
  | item :: rest => do
    match ← failure A H item with
    | some (item, error) => pure { result with failed := some item, error := some error }
    | none => drainItems { result with count := result.count + 1 } rest

def drain : P Drained := do
  let items ← pending A H
  let result ← drainItems A H ⟨0, none, none, 0⟩ items
  let left ← pending A H
  pure { result with remaining := left.length }

/-! ## Runs -/

inductive Command where
  | arrive (a : Arrival)
  | drain (H : Host)

def perform : Command → P Unit
  | .arrive a => arrive A a
  | .drain H => discard (drain A H)

/-- The caller goes on after an error, and a new process after the end of the old one. -/
def run (commands : List Command) : World :=
  commands.foldl (fun w c => (perform A c w).2) .empty

end Run

end Outbox

end TradeEngine
