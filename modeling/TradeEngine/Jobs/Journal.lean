import TradeEngine.Lib.Except
import TradeEngine.Lib.OMap

/-!
# The journal of jobs

Durable control records over the owner's store, one under each request. A write is one transaction: it is refused before it
starts, or its operation succeeds and is committed, or nothing changes.
-/

namespace TradeEngine.Jobs

open Lib

/-! ## Records -/

inductive Kind where
  | store
  | record
  | version
  | config
  | stopped
  | admissionBusy
  | request
  | generation
  | job
  | conflict
  | capacity
  | transition
  | stopping
deriving DecidableEq, Repr

def Kind.value : Kind → String
  | .store => "RuntimeStoreError"
  | .record => "RuntimeRecordError"
  | .version => "RuntimeVersionError"
  | .config => "RuntimeConfigError"
  | .stopped => "RuntimeStoppedError"
  | .admissionBusy => "RuntimeAdmissionBusyError"
  | .request => "RuntimeRequestError"
  | .generation => "RuntimeGenerationError"
  | .job => "RuntimeJobError"
  | .conflict => "RuntimeConflictError"
  | .capacity => "RuntimeCapacityError"
  | .transition => "RuntimeTransitionError"
  | .stopping => "RuntimeStoppingError"

structure Error where
  kind : Kind
  message : String

def Error.text (e : Error) : String := e.kind.value ++ ": " ++ e.message

abbrev J (α : Type) := Except Error α

def refuse {α : Type} (kind : Kind) (message : String) : J α := .error ⟨kind, message⟩

inductive State where
  | queued
  | running
  | completed
  | refused
  | failed
  | uncertain
deriving DecidableEq, Repr

/-- Queued or running: a completion is still to be recorded. -/
def State.isOpen : State → Bool
  | .queued | .running => true
  | _ => false

structure Failure where
  type : String
  message : String
deriving DecidableEq

structure Record (Value : Type) where
  version : Nat
  requestId : String
  instanceId : String
  payload : Value
  state : State
  observedSeq : Int
  committedSeq : Int
  result : Option Value
  error : Option Failure
deriving DecidableEq

structure Request (Value : Type) where
  version : Nat
  requestId : String
  generation : String
  role : String
  job : String
  options : Value
deriving DecidableEq

/-- The JSON library over the values it reads back as it wrote them: floats that keep their digits, nested within its depth
limit. A request comes out of a payload, records are texts, and a record is read as it was written, but that a result that is
null is read as none. -/
structure Serde (Value : Type) where
  request : Value → Except String (Request Value)
  isObject : Value → Bool
  isNull : Value → Bool
  write : Record Value → Except String String
  read : String → Except String (Record Value)
  read_write : ∀ {r : Record Value} {text : String}, write r = .ok text →
    read text = .ok { r with result := r.result.filter (!isNull ·) }

def jobPrefix : String := "te.runtime.jobs.v1:"

def recordVersion : Nat := 1

def jobKey (id : String) : String := jobPrefix ++ id

def identifier (value : String) : Bool :=
  value ≠ "" && value.utf8ByteSize ≤ 128 &&
    value.toList.all fun c => c.isAlphanum || "_.:-".toList.contains c

/-! ## The store -/

structure Store where
  table : OMap String String
  seq : Int

variable {Value : Type} (S : Serde Value)

def decode (text key : String) : J (Record Value) := do
  let record ← (S.read text).mapError (⟨.record, ·⟩)
  if record.version ≠ recordVersion then
    refuse .version s!"unsupported job record version: {record.version}"
  else if !identifier record.requestId || key ≠ jobKey record.requestId then
    refuse .record "job record key does not match its request ID"
  else pure record

def load (st : Store) (id : String) : J (Option (Record Value)) :=
  match st.table.get (jobKey id) with
  | none => .ok none
  | some text => (decode S text (jobKey id)).map some

def save (st : Store) (record : Record Value) : J Store := do
  let text ← (S.write record).mapError (⟨.record, ·⟩)
  pure { st with table := st.table.put (jobKey record.requestId) text }

/-- What a transaction meets besides its own operation. -/
inductive Fault where
  /-- A poisoned lock, a closed connection, an active transaction, a failed start or commit: nothing is written. -/
  | refused (e : Error)
  /-- The commit took effect and was reported as failed. -/
  | lost (e : Error)
  | none

/-- One transaction. -/
def write {α : Type} (fault : Fault) (operation : Store → J (α × Store)) (st : Store) : J α × Store :=
  match fault, operation st with
  | .refused e, _ => (.error e, st)
  | _, .error e => (.error e, st)
  | .lost e, .ok (_, st') => (.error e, st')
  | .none, .ok (a, st') => (.ok a, st')

/-! ## The journal -/

structure Journal where
  role : String
  generation : String
  instanceId : String
  jobs : List String
  limit : Nat

def newJournal (j : Journal) : J Journal :=
  if !identifier j.role || !identifier j.generation || !identifier j.instanceId || j.jobs.isEmpty ||
      j.jobs.any (!identifier ·) || j.limit = 0 then
    refuse .config "role/generation/instance/jobs and a positive record limit are required"
  else .ok j

variable [DecidableEq Value]

/-- The record of a request, and whether it was inserted. -/
def insertRecord (j : Journal) (request : Request Value) (payload : Value) (st : Store) :
    J ((Record Value × Bool) × Store) := do
  match ← load S st request.requestId with
  | some record =>
    if record.payload ≠ payload then
      refuse .conflict "request ID is already persisted with a different payload"
    else pure ((record, false), st)
  | none =>
    let count := (st.table.items.filter fun e => jobPrefix.toList.isPrefixOf e.1.toList).length
    if j.limit ≤ count then
      refuse .capacity "job record capacity reached; existing records are retained"
    else do
      let record : Record Value :=
        { version := recordVersion, requestId := request.requestId, instanceId := j.instanceId, payload := payload,
          state := .queued, observedSeq := st.seq, committedSeq := st.seq, result := none, error := none }
      let st' ← save S st record
      pure ((record, true), st')

/-- What is checked of a request before the store is touched. -/
def checkRequest (j : Journal) (payload : Value) : J (Request Value) := do
  let request ← (S.request payload).mapError (⟨.request, ·⟩)
  if request.version ≠ recordVersion then
    refuse .version s!"unsupported job request version: {request.version}"
  else if !identifier request.requestId || !S.isObject request.options then
    refuse .request "request_id must be an opaque identifier and options must be an object"
  else if request.role ≠ j.role || request.generation ≠ j.generation then
    refuse .generation "request role/configuration generation does not match the owner"
  else if !j.jobs.contains request.job then refuse .job s!"job is not configured: {request.job}"
  else pure request

def admitRequest (j : Journal) (payload : Value) (fault : Fault) (st : Store) : J (Record Value × Bool) × Store :=
  match checkRequest S j payload with
  | .error e => (.error e, st)
  | .ok request => write fault (insertRecord S j request payload) st

omit [DecidableEq Value]

/-- A read fails or loads the record. -/
def getRecord (id : String) (fault : Option Error) (st : Store) : J (Option (Record Value)) :=
  if identifier id then
    match fault with
    | some e => .error e
    | none => load S st id
  else refuse .request "request_id must be an opaque identifier"

/-- Change the record of a request that this instance has in a state. -/
def change (j : Journal) (id : String) (state : State) (message : String)
    (f : Record Value → Record Value) (st : Store) : J (Record Value × Store) := do
  match ← load S st id with
  | none => refuse .job "job admission was not persisted"
  | some record =>
    if record.state ≠ state || record.instanceId ≠ j.instanceId then refuse .transition message
    else do
      let record := f record
      let st' ← save S st record
      pure (record, st')

def start (j : Journal) (id : String) (fault : Fault) (st : Store) : J (Record Value) × Store :=
  write fault (change S j id .queued "only this instance's queued admission may start" fun r =>
    { r with state := .running, observedSeq := st.seq }) st

def finish (j : Journal) (id : String) (state : State) (result : Option Value) (error : Option Failure) (fault : Fault)
    (st : Store) : J (Record Value) × Store :=
  if state.isOpen || (state = .completed && (result.isNone || error.isSome)) ||
      (state ≠ .completed && error.isNone) then
    (refuse .transition "completion requires an exact result or explicit failure", st)
  else
    write fault (change S j id .running "only this instance's running job may complete" fun r =>
      { r with state := state, result := result, error := error, committedSeq := st.seq }) st

/-- Mark one unfinished record as uncertain. -/
def recoverOne (acc : List (Record Value) × Store) (e : String × String) : J (List (Record Value) × Store) := do
  let record ← decode S e.2 e.1
  if record.state.isOpen then do
    let record := { record with
      state := .uncertain
      error := some ⟨"RuntimeResumeRequired",
        "admitted job has no durable completion; explicit reconciliation/resume is required"⟩
      committedSeq := acc.2.seq }
    let st ← save S acc.2 record
    pure (acc.1 ++ [record], st)
  else pure acc

/-- The job records in key order. -/
def jobRows (st : Store) : List (String × String) :=
  ((st.table.items.filter fun e => jobPrefix.toList.isPrefixOf e.1.toList).map fun e => (e.1, e.2.2)).insertionSort
    fun a b => ¬ b.1 < a.1

def recover (fault : Fault) (st : Store) : J (List (Record Value)) × Store :=
  write fault (fun st => (jobRows st).foldlM (recoverOne S) ([], st)) st

end TradeEngine.Jobs
