import TradeEngine.Jobs.Journal

/-!
# The serialized owners of the jobs

A process owns the store from its recovery until it closes it: the actor, whose clients submit while its worker takes one job
after another, or a one-shot client that runs its own job. A step is one thing that one of them does, so that the steps of
clients, workers and environment interleave as they like. A process may crash between any two of its steps, and one that
has closed the store may go on.
-/

namespace TradeEngine.Jobs

open Lib

/-- One job's terminal outcome. -/
inductive Outcome (Value : Type) where
  | completed (result : Value)
  | refused (error : Failure)
  | failed (error : Failure)

def Outcome.parts {Value : Type} : Outcome Value → State × Option Value × Option Failure
  | .completed result => (.completed, some result, none)
  | .refused error => (.refused, none, some error)
  | .failed error => (.failed, none, some error)

/-- What a panic of the host is recorded as. -/
def hostPanic {Value : Type} (message : Option String) : Outcome Value :=
  .failed ⟨"RuntimeHostPanic", message.getD "job host panicked"⟩

/-- How far `execute` has come. -/
inductive Worker (Value : Type) where
  | idle
  | taken (id : String)
  | loaded (id : String) (record : Record Value)
  | started (id : String) (record : Record Value)
  | running (id : String)
  | ran (id : String) (outcome : Outcome Value)

inductive Mode where
  | actor
  | once
deriving DecidableEq, Repr

/-- A process: `checked` holds what clients are about to admit, `waiting` what they have admitted and not yet queued. -/
structure Owner (Value : Type) where
  mode : Mode
  journal : Journal
  queue : List String
  stopping : Bool
  closed : Bool
  worker : Worker Value
  checked : List Value
  waiting : List (Record Value)
  errors : List String

/-- The store, the requests the host was called with and the requests acknowledged. -/
structure Shared where
  store : Store
  runs : List String
  acks : List String

structure World (Value : Type) where
  shared : Shared
  owners : List (Owner Value)

/-- What one process does. -/
inductive Act (Value : Type) where
  | submit (payload : Value)
  /-- A client, or the one-shot process, admits what it checked. -/
  | admits (n : Nat) (fault : Fault)
  /-- A client queues what it admitted and is answered. -/
  | push (n : Nat)
  | take
  | load (fault : Option Error)
  | start (fault : Fault)
  | call
  | returns (outcome : Outcome Value)
  | panics (message : Option String)
  | finish (fault : Fault)
  /-- The one-shot client is answered. -/
  | answer (fault : Option Error)
  | stop
  | close
  | crash

inductive Action (Value : Type) where
  /-- An actor starts on the store. -/
  | opens (journal : Journal) (fault : Fault)
  /-- A one-shot client starts on the store with its request. -/
  | once (journal : Journal) (payload : Value) (fault : Fault)
  | act (process : Nat) (a : Act Value)
  /-- Events reach the ledger. -/
  | advance (seq : Int)

variable {Value : Type} (S : Serde Value)

namespace Owner

def opened (mode : Mode) (journal : Journal) (checked : List Value) : Owner Value :=
  { mode := mode, journal := journal, queue := [], stopping := false, closed := false, worker := .idle, checked := checked,
    waiting := [], errors := [] }

/-- A process that is no more. -/
def ended (o : Owner Value) : Owner Value :=
  { o with queue := [], stopping := true, closed := true, worker := .idle, checked := [], waiting := [] }

/-- The worker gives a job up and goes back to its queue. -/
def failure (o : Owner Value) (message : String) : Owner Value :=
  { o with worker := .idle, errors := o.errors ++ [message] }

def stoppedError : Error := ⟨.stopped, "owner connection is closed"⟩

/-- A journal whose connection is closed writes nothing. -/
def writeFault (o : Owner Value) (fault : Fault) : Fault := if o.closed then .refused stoppedError else fault

def readFault (o : Owner Value) (fault : Option Error) : Option Error := if o.closed then some stoppedError else fault

/-- Stopping is read before anything is admitted. -/
def submit (o : Owner Value) (payload : Value) : Owner Value :=
  if o.stopping || o.mode = .once then o else { o with checked := o.checked ++ [payload] }

def admits [DecidableEq Value] (o : Owner Value) (n : Nat) (fault : Fault) (s : Shared) : Shared × Owner Value :=
  match o.checked[n]? with
  | none => (s, o)
  | some payload =>
    let o := { o with checked := o.checked.eraseIdx n }
    match Jobs.admitRequest S o.journal payload (o.writeFault fault) s.store, o.mode with
    | (.error _, st), .actor => ({ s with store := st }, o)
    | (.ok (record, true), st), .actor => ({ s with store := st }, { o with waiting := o.waiting ++ [record] })
    | (.ok (record, false), st), .actor => ({ s with store := st, acks := s.acks ++ [record.requestId] }, o)
    | (.error _, st), .once => ({ s with store := st }, o.ended)
    | (.ok (record, true), st), .once =>
      ({ s with store := st }, { o with waiting := [record], worker := .taken record.requestId })
    | (.ok (record, false), st), .once => ({ s with store := st, acks := s.acks ++ [record.requestId] }, o.ended)

def push (o : Owner Value) (n : Nat) (s : Shared) : Shared × Owner Value :=
  match o.mode, o.waiting[n]? with
  | .actor, some record =>
    ({ s with acks := s.acks ++ [record.requestId] },
      { o with queue := o.queue ++ [record.requestId], waiting := o.waiting.eraseIdx n })
  | _, _ => (s, o)

/-- Stopping is checked before a job is taken. -/
def take (o : Owner Value) : Owner Value :=
  match o.stopping, o.worker, o.queue with
  | false, .idle, id :: rest => { o with queue := rest, worker := .taken id }
  | _, _, _ => o

def load (o : Owner Value) (fault : Option Error) (s : Shared) : Owner Value :=
  match o.worker with
  | .taken id =>
    match getRecord S id (o.readFault fault) s.store with
    | .ok (some record) => { o with worker := .loaded id record }
    | .ok none => o.failure s!"admitted job vanished before execution: {id}"
    | .error e => o.failure ("job " ++ id ++ " could not be loaded: " ++ e.text)
  | _ => o

def start (o : Owner Value) (fault : Fault) (s : Shared) : Shared × Owner Value :=
  match o.worker with
  | .loaded id record =>
    match Jobs.start S o.journal id (o.writeFault fault) s.store with
    | (.ok _, st) => ({ s with store := st }, { o with worker := .started id record })
    | (.error e, st) => ({ s with store := st }, o.failure ("job " ++ id ++ " could not start: " ++ e.text))
  | _ => (s, o)

/-- The host is called. -/
def call (o : Owner Value) (s : Shared) : Shared × Owner Value :=
  match o.worker with
  | .started id _ => ({ s with runs := s.runs ++ [id] }, { o with worker := .running id })
  | _ => (s, o)

def returns (o : Owner Value) (outcome : Outcome Value) : Owner Value :=
  match o.worker with
  | .running id => { o with worker := .ran id outcome }
  | _ => o

def finish (o : Owner Value) (fault : Fault) (s : Shared) : Shared × Owner Value :=
  match o.worker with
  | .ran id outcome =>
    match Jobs.finish S o.journal id outcome.parts.1 outcome.parts.2.1 outcome.parts.2.2 (o.writeFault fault) s.store with
    | (.ok _, st) => ({ s with store := st }, { o with worker := .idle })
    | (.error e, st) =>
      ({ s with store := st }, o.failure ("job " ++ id ++ " could not record its outcome: " ++ e.text))
  | _ => (s, o)

def answer (o : Owner Value) (fault : Option Error) (s : Shared) : Shared × Owner Value :=
  match o.mode, o.worker, o.waiting with
  | .once, .idle, record :: _ =>
    match getRecord S record.requestId (o.readFault fault) s.store with
    | .ok _ => ({ s with acks := s.acks ++ [record.requestId] }, o.ended)
    | .error _ => (s, o.ended)
  | _, _, _ => (s, o)

def stop (o : Owner Value) : Owner Value := { o with stopping := o.stopping || o.mode = .actor }

/-- A stop that waited for its worker, or a second one after it gave up waiting, closes the store. -/
def close (o : Owner Value) : Owner Value := { o with closed := o.closed || o.stopping }

def act [DecidableEq Value] (o : Owner Value) (s : Shared) : Act Value → Shared × Owner Value
  | .submit payload => (s, o.submit payload)
  | .admits n fault => o.admits S n fault s
  | .push n => o.push n s
  | .take => (s, o.take)
  | .load fault => (s, o.load S fault s)
  | .start fault => o.start S fault s
  | .call => o.call s
  | .returns outcome => (s, o.returns outcome)
  | .panics message => (s, o.returns (hostPanic message))
  | .finish fault => o.finish S fault s
  | .answer fault => o.answer S fault s
  | .stop => (s, o.stop)
  | .close => (s, o.close)
  | .crash => (s, o.ended)

end Owner

namespace World

/-- A process starts when the store is free, with a journal that is well configured, and recovers what was left. -/
def opens (w : World Value) (mode : Mode) (journal : Journal) (checked : List Value) (fault : Fault) : World Value :=
  if w.owners.all (·.closed) then
    match newJournal journal with
    | .error _ => w
    | .ok journal =>
      match recover S fault w.shared.store with
      | (.ok _, st) => ⟨{ w.shared with store := st }, w.owners ++ [.opened mode journal checked]⟩
      | (.error _, st) => ⟨{ w.shared with store := st }, w.owners⟩
  else w

def step [DecidableEq Value] (w : World Value) : Action Value → World Value
  | .opens journal fault => w.opens S .actor journal [] fault
  | .once journal payload fault => w.opens S .once journal [payload] fault
  | .advance seq => { w with shared := { w.shared with store := { w.shared.store with seq := seq } } }
  | .act process a =>
    match w.owners[process]? with
    | none => w
    | some o => ⟨(o.act S w.shared a).1, w.owners.set process (o.act S w.shared a).2⟩

def run [DecidableEq Value] (w : World Value) (actions : List (Action Value)) : World Value := actions.foldl (step S) w

/-- A store that no process has opened. -/
def initial (st : Store) : World Value := ⟨⟨st, [], []⟩, []⟩

end World

end TradeEngine.Jobs
