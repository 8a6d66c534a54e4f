import TradeEngine.Lib.Program
import TradeEngine.Oms.Plan

/-!
# What the order manager works on

The committed ledger with its folded states, the venue's answers and the calls made so far. Every
call to the host can raise, and the process can die in it; what was committed before stays.
-/

namespace TradeEngine.Oms

open Lib

/-! ## The ledger -/

/-- A committed log with the states it folds to. -/
structure Ledger (A : Arith) where
  events : List Event
  states : States
  folded : events.foldlM (foldStep A) .empty = .ok states

/-- An order as one account's state holds it, with what else the state says of it. -/
structure Context where
  order : Order
  filled : Money
  venueOrderId : Option String
  emulation : Option EmulatedOrderState

namespace Ledger

variable {A : Arith}

def empty : Ledger A := ⟨[], .empty, rfl⟩

def byCommand (l : Ledger A) (command : String) : Option Event :=
  l.events.find? (·.commandId = some command)

def ofKind (l : Ledger A) (kind : EventKind) : List Event := l.events.filter (·.kind = kind)

/-- An account's folded state; empty before its first event. -/
def state (l : Ledger A) (account : String) : AccountState :=
  (l.states.get account).getD (.new account)

/-- Store an event under the next number, if its account's fold takes it. -/
def append (l : Ledger A) (e : EventFields) : R (Ledger A) :=
  match makeEvent { e with seq := some (l.events.length + 1) } with
  | .error x => .error x
  | .ok ev =>
    match h : foldStep A l.states ev with
    | .error x => .error x
    | .ok states => .ok ⟨l.events ++ [ev], states, by
        rw [List.foldlM_append, l.folded]
        simpa using h⟩

theorem append_ok {l l' : Ledger A} {e : EventFields} (h : l.append e = .ok l') :
    ∃ ev, makeEvent { e with seq := some (l.events.length + 1) } = .ok ev ∧
      l'.events = l.events ++ [ev] ∧ foldStep A l.states ev = .ok l'.states := by
  unfold append at h
  split at h
  · cases h
  · rename_i ev hev
    split at h
    · cases h
    · rename_i states hs
      cases h
      exact ⟨ev, hev, rfl, hs⟩

theorem append_extends {l l' : Ledger A} {e : EventFields} (h : l.append e = .ok l') :
    l.events <+: l'.events := by
  obtain ⟨ev, -, hl, -⟩ := append_ok h
  exact ⟨[ev], hl.symm⟩

/-- The context of an order in one account's state. -/
def contextIn (st : AccountState) (orderId : String) : Option Context :=
  (st.orders.get orderId).map fun o =>
    ⟨o, st.filled orderId, st.venueOrderIds.get orderId, st.emulatedOrders.get orderId⟩

/-- The first account, in the order of first events, whose state holds the order. -/
def context? (l : Ledger A) (orderId : String) : Option Context :=
  l.states.values.findSome? (contextIn · orderId)

def context (l : Ledger A) (orderId : String) : R Context :=
  match l.context? orderId with
  | some c => .ok c
  | none => err .key s!"Unknown order_id '{orderId}'"

def getOrder (l : Ledger A) (orderId : String) : R Order := do
  pure (← l.context orderId).order

/-- The order as its `OrdersCreated` event planned it. -/
def plannedOrder (l : Ledger A) (orderId : String) : R Order :=
  match (l.ofKind .ordersCreated).findSome? fun e => e.payload.createdOrders.find? (·.orderId = orderId)
  with
  | some o => .ok o
  | none => err .key s!"No creation event contains order '{orderId}'"

/-- An `OrderPending` replace request whose `:accepted` and `:rejected` commands are both absent. -/
def hasUnresolvedReplace (l : Ledger A) (orderId : String) : Bool :=
  (l.ofKind .orderPending).any fun e =>
    (pendingCandidate orderId e).any fun command =>
      (l.byCommand (command ++ ":accepted")).isNone && (l.byCommand (command ++ ":rejected")).isNone

end Ledger

/-! ## The venue -/

structure Allocation where
  strategyOrderId : String
  accountId : String
  quantity : Money

structure VenueOrder where
  venueOrderId : String
  instrument : Instrument
  orderType : OrderType
  side : Side
  quantity : Money
  submittedAt : DateTime
  tif : Tif
  limitPrice : Option Money
  stopPrice : Option Money
  trailAmount : Option Money
  allocations : List Allocation
  parentOrderId : Option String
  ocoGroup : Option String

structure VenueAck where
  venueOrderId : String
  status : String
  message : Option String

structure VenueFill where
  venueFillId : String
  venueOrderId : String
  instrument : Instrument
  quantity : Money
  price : Money
  filledAt : DateTime
  side : Side
  fee : Money
  legId : Option String

/-- A broker call's outcome: the venue answered, the call failed, or it raised what is not caught. -/
inductive Net where
  | ok (ack : VenueAck)
  | failed
  | raised

structure Intent where
  wire : String
  intentId : String
  accountId : String
  instrument : Instrument
  side : Side
  entryPrice : Money
  stopLoss : Money
  profitTargets : List Money
  reason : String
  commandId : String
  entryTif : Tif
  exitTif : Tif
  entryType : OrderType
  entryLimitPrice : Option Money
  targetFractions : Option (List Money)

/-- The host: what each of its calls, numbered in the order they are made, answers. The digests are
those of the encoded trees. -/
structure Host where
  fails : Nat → Bool
  now : Nat → DateTime × Bool
  capabilities : Nat → Capabilities
  env : Nat → VenueEnv
  venueOrder : Nat → VenueOrder → R Unit
  submit : Nat → VenueOrder → Net
  cancel : Nat → String → Net
  replace : Nat → String → OrderChanges → Net
  orders : Nat → DateTime → List VenueOrderState
  fills : Nat → DateTime → List VenueFill
  fingerprintOrder : Order → String
  bracketFingerprint : Intent → Money → String
  reduceFingerprint : String → Money → String → String

/-! ## The world -/

/-- What is noted of a run: the broker calls, a cancel or replace that goes to the venue before it
is marked pending, and an order that the venue's read-back holds. -/
inductive Act where
  | submit (account orderId : String)
  | cancel (account orderId : String)
  | replace (account orderId : String)
  | cancelOrder (account orderId command : String)
  | replaceOrder (account orderId : String)
  | found (orderId : String)
deriving DecidableEq, Repr

/-- Something noted, and the ledger it happened on. -/
structure Call (A : Arith) where
  act : Act
  ledger : Ledger A

/-- The ledger and the calls made, each on a ledger this one extends: all that outlives a crash. -/
structure Core (A : Arith) where
  ledger : Ledger A
  trace : List (Call A)
  extends_trace : ∀ call ∈ trace, call.ledger.events <+: ledger.events

structure World (A : Arith) where
  core : Core A
  tick : Nat

def World.ledger {A : Arith} (w : World A) : Ledger A := w.core.ledger

def World.opened {A : Arith} : World A := ⟨⟨.empty, [], by simp⟩, 0⟩

def Core.note {A : Arith} (c : Core A) (act : Act) : Core A :=
  ⟨c.ledger, c.trace ++ [⟨act, c.ledger⟩], by
    intro call hcall
    rcases List.mem_append.mp hcall with hcall | hcall
    · exact c.extends_trace call hcall
    · rw [List.mem_singleton.mp hcall]⟩

def Core.append {A : Arith} (c : Core A) (e : EventFields) : R (Core A) :=
  match h : c.ledger.append e with
  | .error x => .error x
  | .ok l => .ok ⟨l, c.trace, fun call hcall =>
      (c.extends_trace call hcall).trans (Ledger.append_extends h)⟩

abbrev M (A : Arith) (α : Type) := Prog LErr (World A) α

section Calls

variable {A : Arith} (H : Host)

def raised : LErr := ⟨.host, "the host raised"⟩

def note (act : Act) : M A Unit := .modify fun w => { w with core := w.core.note act }

/-- One call of the host, answered by `f` at its number. -/
def call {α : Type} (f : Nat → α) : M A α := fun w =>
  (if H.fails w.tick then .error raised else .ok (f w.tick), ⟨w.core, w.tick + 1⟩)

/-- A read of the ledger. -/
def read {α : Type} (f : Ledger A → R α) : M A α := do
  call H fun _ => ()
  let w ← Prog.get
  Prog.lift (f w.ledger)

/-- A broker call: noted when it is made, then answered. -/
def broker (act : Act) (f : Nat → Net) : M A (Option VenueAck) := do
  let answer ← call H f
  note act
  match answer with
  | .ok ack => pure (some ack)
  | .failed => pure none
  | .raised => Prog.fail raised

/-- The clock's value, refused when naive. -/
def utcNow : M A DateTime := do
  let now ← call H H.now
  Prog.lift (refuseIf (!now.2) .value "Clock returned a naive datetime")
  pure now.1

/-- `ledger.append(event)`. -/
def store (e : EventFields) : M A Event := do
  call H fun _ => ()
  let w ← Prog.get
  let c ← Prog.lift (w.core.append e)
  Prog.modify fun w => { w with core := c }
  Prog.lift (match c.ledger.events.getLast? with
    | some ev => .ok ev
    | none => .error raised)

/-- The `__post_init__` checks of the payloads the manager constructs. -/
def checked : Obj → R Unit
  | .stateChange c => checkStateChange c
  | .ordersCreated c => checkOrdersCreated c
  | .orderUpdated u => checkOrderUpdated u
  | .emulated e => checkEmulated e
  | _ => .ok ()

/-- `_append`: a replay of the command id returns the stored event when the payload matches and
refuses when it does not; otherwise the event is appended. -/
def append (account : String) (kind : EventKind) (payload : Obj) (command : String) :
    M A Event := do
  Prog.lift (checked payload)
  let now ← utcNow H
  Prog.lift (refuseIf (account = "") .payload "Event.account must be non-empty")
  let ts ← Prog.lift (match now.toUtc with
    | some t => .ok t
    | none => err .overflow "date value out of range")
  let e : EventFields := ⟨account, kind, payload, ts, some command, schemaVersion, none⟩
  Prog.lift (checkEvent e)
  let existing ← read H fun l => .ok (l.byCommand command)
  match existing with
  | some prior => do
    Prog.lift (appendReplay prior account kind payload command)
    pure prior
  | none => store H e

def context (orderId : String) : M A Context := read H (·.context orderId)

def getOrder (orderId : String) : M A Order := read H (·.getOrder orderId)

def accountState (account : String) : M A AccountState := read H fun l => .ok (l.state account)

def eventByCommand (command : String) : M A (Option Event) := read H fun l => .ok (l.byCommand command)

end Calls

end TradeEngine.Oms
