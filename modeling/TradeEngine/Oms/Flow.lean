import TradeEngine.Oms.Host

/-!
# The order manager's command flow

One definition per method. Each effect is one host call, made where the source makes it: what must
be durable before the network is appended before the broker is called.
-/

namespace TradeEngine.Oms

open Lib

variable {A : Arith} (H : Host)

/-! ## Plumbing -/

/-- An order by its id; `none` for an unknown one. -/
def findOrder (orderId : String) : M A (Option Order) := read H fun l =>
  match l.getOrder orderId with
  | .ok o => .ok (some o)
  | .error e => if e.kind = .key then .ok none else .error e

/-- Record an `OrderRefused` for the order. -/
def refuse (order : Order) (reason command : String) : M A Event :=
  append H order.accountId .orderRefused (.stateChange ⟨order.orderId, some reason, none⟩) command

/-- Record the refusal (under `command`, else the order's own command id), then refuse. -/
def plannedRefusal {α : Type} (order : Order) (mode : Refusal) (command : Option String) :
    M A α := do
  let plan := refused order mode
  let _ ← refuse H order plan.1 (command.getD order.commandId ++ ":" ++ plan.2.1)
  Prog.fail plan.2.2

/-- The order as it is, or (a triggered emulated order) the venue type and limit alone. -/
def venueTerms (order : Order) (trigger : Option (OrderType × Option Money)) : M A VenueOrder := do
  let submittedAt ← utcNow H
  let allocations : List Allocation := [⟨order.orderId, order.accountId, order.quantity⟩]
  match trigger with
  | none => pure ⟨order.orderId, order.instrument, order.orderType, order.side, order.quantity,
      submittedAt, order.tif, order.limitPrice, order.stopPrice, order.trailAmount, allocations,
      order.parentOrderId, order.ocoGroup⟩
  | some (t, limit) => pure ⟨order.orderId, order.instrument, t, order.side, order.quantity,
      submittedAt, order.tif, limit, none, none, allocations, order.parentOrderId, order.ocoGroup⟩

/-- The fields, then the venue's own validation. -/
def venueOrder (order : Order) (trigger : Option (OrderType × Option Money)) : M A VenueOrder := do
  let terms ← venueTerms H order trigger
  let valid ← call H fun n => H.venueOrder n terms
  Prog.lift valid
  pure terms

/-- MARKET, else LIMIT; neither is a recorded refusal. -/
def triggerOrderType (order : Order) : M A OrderType := do
  let caps ← call H H.capabilities
  match triggerType caps.types with
  | some t => pure t
  | none => plannedRefusal H order .trigger none

def supportsNativeType (t : OrderType) : M A Bool := do
  let caps ← call H H.capabilities
  pure (supportsNative t caps)

/-- An unsupported time in force is a recorded refusal. -/
def requireTif (order : Order) (venueType : Option OrderType) : M A Unit := do
  let caps ← call H H.capabilities
  let unsupported ← Prog.lift (unsupportedTif order.tif venueType caps)
  if unsupported then plannedRefusal H order .tif none else pure ()

/-- An order type the venue does not take is a recorded refusal. -/
def requireNative (order : Order) : M A Unit := do
  let native ← supportsNativeType H order.orderType
  if native then pure () else plannedRefusal H order .native none

/-- The stored order, else the given one. -/
def storedOrder (order : Order) : M A Order := do
  pure ((← findOrder H order.orderId).getD order)

/-- Each order as stored: first position, last value per id. -/
def collectStored : List Order → List Order → M A (List Order)
  | [], found => pure found
  | o :: rest, found => do
    let stored ← storedOrder H o
    let found := if found.any (·.orderId = o.orderId) then
        found.map fun v => if v.orderId = o.orderId then stored else v
      else found ++ [stored]
    collectStored rest found

def bracketFromOrders (orders : List Order) : M A Bracket := do
  let found ← collectStored H orders []
  Prog.lift (bracketOf found)

/-! ## Pending markers and acknowledgements -/

/-- Already PENDING_UNKNOWN records nothing; otherwise `OrderPending` with the known venue id. -/
def markPending (order : Order) (reason command : String) : M A Unit := do
  let current ← getOrder H order.orderId
  if current.state = .pendingUnknown then pure ()
  else do
    let ctx ← context H current.orderId
    let _ ← append H current.accountId .orderPending
      (.stateChange ⟨current.orderId, some reason, ctx.venueOrderId⟩) command
    pure ()

/-- An unrecognized status refuses before anything is recorded. -/
def recordSubmitAck (order : Order) (ack : VenueAck) (command : String) : M A Unit := do
  let plan ← Prog.lift (submitAck ack.status (ack.message.getD ""))
  let _ ← append H order.accountId plan.1
    (.stateChange ⟨order.orderId, some plan.2, some ack.venueOrderId⟩) command
  pure ()

/-- The order with the previous state and the venue id. -/
def restoreWorkingState (order : Order) (previous : OrderState) (reason venueOrderId command : String) :
    M A Unit := do
  let _ ← append H order.accountId .orderUpdated
    (.orderUpdated ⟨{ order with state := previous }, reason, some venueOrderId⟩) command
  pure ()

/-! ## Submission -/

/-- An unknown order is persisted on its own; a stored one must match its planned order. -/
def ensureStored (order : Order) : M A Unit := do
  Prog.lift (validateQuantity order.instrument order.quantity)
  let known ← findOrder H order.orderId
  match known with
  | none => do
    let _ ← append H order.accountId .ordersCreated
      (.ordersCreated ⟨[order], H.fingerprintOrder order, "Standalone strategy order created"⟩)
      order.commandId
    pure ()
  | some _ => do
    let created ← read H (·.plannedOrder order.orderId)
    Prog.lift (stored created order)

/-- Send a venue order: the call is noted for the order it carries. -/
def sendOrder (order : Order) (venue : VenueOrder) : M A (Option VenueAck) :=
  broker H (.submit order.accountId order.orderId) fun n => H.submit n venue

/-- `OrderUpdated` (SUBMITTED), then the pending marker: durable before the network. -/
def requestSubmission (order : Order) (reason requestId pendingReason pendingId : String) :
    M A Unit := do
  let submitted := { order with state := .submitted }
  let _ ← append H order.accountId .orderUpdated (.orderUpdated ⟨submitted, reason, none⟩) requestId
  markPending H submitted pendingReason pendingId

def submitNative (order : Order) : M A Order :=
  if order.state ≠ .new then pure order
  else do
    requireNative H order
    requireTif H order none
    requestSubmission H order "Order submission requested" (order.commandId ++ ":submit")
      "Submit outcome is pending until the venue responds" (order.commandId ++ ":submit-pending")
    let unknown : LErr :=
      ⟨.brokerUnknown, s!"Submit outcome for order '{order.orderId}' is unknown; it will not be resent"⟩
    let built ← Prog.attempt (venueOrder H order none)
    match built with
    | .error _ => Prog.fail unknown
    | .ok venue => do
      let answer ← sendOrder H order venue
      match answer with
      | none => Prog.fail unknown
      | some ack => do
        recordSubmitAck H order ack (order.commandId ++ ":submit-result")
        getOrder H order.orderId

/-- Keep an emulated order's first state, once its trigger could be routed. -/
def beginEmulation (order : Order) (triggerType : OrderType) : M A Order := do
  requireTif H order (some triggerType)
  let ctx ← context H order.orderId
  if ctx.emulation.isNone then do
    let _ ← append H order.accountId .orderEmulationUpdated
      (.emulated ⟨order.orderId, none, none, order.stopPrice, false,
        s!"Emulated {order.orderType.value} working; awaiting live prices"⟩)
      (order.commandId ++ ":emulation-start")
    getOrder H order.orderId
  else getOrder H order.orderId

def startEmulation (order : Order) : M A Order := do
  let caps ← call H H.capabilities
  let plan ← Prog.lift (startPlan order caps.types)
  match plan with
  | .ret => pure order
  | .refuseLimit => plannedRefusal H order .limit none
  | .limit => beginEmulation H order .limit
  | .trigger => do
    let t ← triggerOrderType H order
    beginEmulation H order t

/-- Emulate the order or send it. -/
def dispatchSubmit (current : Order) : M A Order := do
  let caps ← call H H.capabilities
  if emulates current.orderType caps then startEmulation H current else submitNative H current

/-- A child is held (a recorded refusal) until its parent has a fill. -/
def submit (order : Order) : M A Order := do
  ensureStored H order
  let ctx ← context H order.orderId
  match ctx.order.parentOrderId with
  | none => dispatchSubmit H ctx.order
  | some parentId => do
    let parent ← context H parentId
    let st ← accountState H ctx.order.accountId
    if childHold (st.filled parent.order.orderId) then
      plannedRefusal H ctx.order (.child parent.order.orderId) none
    else dispatchSubmit H ctx.order

def submitTrailing (order : Order) : M A Order := do
  Prog.lift (trailingCheck order.orderType "submit_trailing" "" [])
  submit H order

/-! ## Cancels -/

/-- Record what the venue answered to a cancel. -/
def recordCancelAck (current : Order) (command reason : String) (oco : Bool) (ack : VenueAck) :
    M A Order := do
  let plan ← Prog.lift (cancelAck ack.status reason (ack.message.getD "") current.orderId oco)
  match plan.action with
  | .accepted => do
    let _ ← append H current.accountId .orderCancelled
      (.stateChange ⟨current.orderId, some reason, some ack.venueOrderId⟩) (command ++ ":accepted")
    getOrder H current.orderId
  | .rejected => do
    let _ ← refuse H current plan.reason (command ++ ":refused")
    Prog.fail (plan.refusal.getD raised)
  | .pending => do
    let _ ← append H current.accountId .orderPending
      (.stateChange ⟨current.orderId, some plan.reason, some ack.venueOrderId⟩)
      (command ++ ":venue-pending")
    match plan.refusal with
    | some e => Prog.fail e
    | none => getOrder H current.orderId

/-- Cancel a working order at the venue, marked pending before the call. -/
def cancelAtVenue (ctx : Context) (command reason : String) (oco : Bool) : M A Order := do
  let current := ctx.order
  let venueId ← Prog.lift (confirmedId ctx.venueOrderId current.orderId .cancel)
  note (.cancelOrder current.accountId current.orderId command)
  markPending H current s!"Cancel pending: {reason}" (command ++ ":pending")
  let answer ← broker H (.cancel current.accountId current.orderId) fun n => H.cancel n venueId
  match answer with
  | none => Prog.fail ⟨if oco then .ocoUnknown else .brokerUnknown,
      s!"Cancel outcome for '{current.orderId}' is unknown"⟩
  | some ack => recordCancelAck H current command reason oco ack

/-- Terminal returns; NEW cancels locally; otherwise the venue is asked. -/
def cancelOrder (order : Order) (command reason : String) (oco : Bool) : M A Order := do
  let ctx ← context H order.orderId
  let mode ← Prog.lift (cancelMode ctx.order.state ctx.order.orderId oco)
  match mode with
  | .ret => pure ctx.order
  | .local => do
    let _ ← append H ctx.order.accountId .orderCancelled
      (.stateChange ⟨ctx.order.orderId, some reason, none⟩) (command ++ ":local")
    getOrder H ctx.order.orderId
  | .venue => cancelAtVenue H ctx command reason oco

def cancelExit (command : String) (sibling : Order) : M A Unit := do
  let current ← getOrder H sibling.orderId
  if terminal current.state then pure ()
  else do
    let cancelled ← cancelOrder H current (command ++ ":cancel:" ++ current.orderId)
      s!"Exit sibling cancelled after bracket resolution ({command})" true
    Prog.lift (ocoCheck cancelled.state current.orderId)

/-- Each exit re-read, terminal ones skipped, cancelled as an OCO sibling, in order. -/
def cancelExits (exits : List Order) (command : String) : M A Unit :=
  Prog.forEach (cancelExit H command) exits

/-! ## Emulated orders -/

def submitEmulated (order : Order) (triggerPrice : Option Money) (command : String)
    (venueType : OrderType) (limitPrice : Option Money) : M A Order := do
  let current ← getOrder H order.orderId
  let sends ← Prog.lift (sendsEmulated current)
  if sends then do
    requireTif H current (some venueType)
    let price := triggerPrice.elim "" Money.canon
    requestSubmission H current s!"Emulated {current.orderType.value} submission requested"
      (current.commandId ++ ":emulated-submit")
      s!"Emulated {current.orderType.value} triggered at {price} by {command}"
      (current.commandId ++ ":emulated-pending")
    let venue ← venueOrder H current (some (venueType, limitPrice))
    let answer ← sendOrder H current venue
    match answer with
    | none => Prog.fail ⟨.brokerUnknown,
        s!"Emulated order '{current.orderId}' submit outcome is unknown"⟩
    | some ack => do
      recordSubmitAck H current ack (current.commandId ++ ":emulated-result")
      getOrder H current.orderId
  else pure current

def cancelEmulatedSiblings (order : Order) (command : String) : M A Unit := do
  let st ← accountState H order.accountId
  cancelExits H (siblings order st.orders.values) (command ++ ":" ++ order.orderId ++ ":trigger")

/-- The OCO siblings are cancelled before the triggered order is submitted. -/
def routeEmulatedTrigger (order : Order) (price : Option Money) (command : String) : M A Order := do
  let own ← Prog.lift (triggerPrice order price)
  let venueType ← (if own then pure OrderType.limit else triggerOrderType H order)
  let limit := if own then order.limitPrice else routeLimit venueType price
  requireTif H order (some venueType)
  cancelEmulatedSiblings H order command
  submitEmulated H order price command venueType limit

/-- A new observation of an emulated order, and whether it triggers. -/
def observe (A : Arith) (order : Order) (emulation : Option EmulatedOrderState) (price : Money) :
    R EmulatedOrderState :=
  if order.orderType = .trail then do
    let amount := order.trailAmount.getD .zero
    checkTrailAmount amount
    let trail ← Trail.update A ⟨order.side, amount, emulation.bind (·.extreme),
      emulation.bind (·.stopPrice), emulation.any (·.triggered)⟩ price
    pure ⟨order.orderId, some price, trail.extreme, trail.stopPrice, trail.triggered,
      observationReason order.orderType price trail.triggered⟩
  else do
    let seen ← stopObservation order price
    pure ⟨order.orderId, some price, none, some seen.1, seen.2,
      observationReason order.orderType price seen.2⟩

def recordObservation (order : Order) (emulation : Option EmulatedOrderState) (price : Money)
    (command : String) : M A Order := do
  let seen ← Prog.lift (observe A order emulation price)
  let _ ← append H order.accountId .orderEmulationUpdated (.emulated seen) command
  if seen.triggered then routeEmulatedTrigger H order (some price) command
  else getOrder H order.orderId

/-- A replayed observation: a recorded trigger that has not been sent is routed. -/
def replayObservation (order : Order) (price : Money) (command : String) (prior : Event) :
    M A Order := do
  Prog.lift (observationReplay prior order.accountId order.orderId price command)
  let current ← getOrder H order.orderId
  let seen := match prior.payload with
    | .emulated e => some e
    | _ => none
  let action ← Prog.lift (observedAction (seen.any (·.triggered)) current.state order.orderId)
  if action = .route then routeEmulatedTrigger H order (seen.bind (·.observedPrice)) command
  else pure current

def updateEmulatedOrder (orderId : String) (price : Money) (command : String) : M A Order := do
  Prog.lift (checkPrice price)
  let ctx ← context H orderId
  let caps ← call H H.capabilities
  Prog.lift (emulationCheck orderId ctx.order.orderType ctx.emulation.isSome caps)
  let prior ← eventByCommand H command
  match prior with
  | some e => replayObservation H ctx.order price command e
  | none => do
    let action ← Prog.lift (observedAction (ctx.emulation.any (·.triggered)) ctx.order.state orderId)
    match action with
    | .route =>
      routeEmulatedTrigger H ctx.order (ctx.emulation.bind (·.observedPrice)) command
    | .ret => pure ctx.order
    | .observe => recordObservation H ctx.order ctx.emulation price command

def updateTrailing (orderId : String) (price : Money) (command : String) : M A Order := do
  let order ← getOrder H orderId
  let caps ← call H H.capabilities
  Prog.lift (trailingCheck order.orderType "update_trailing" orderId caps.types)
  updateEmulatedOrder H orderId price command

/-! ## Replaces -/

def replaceEmulatedStop (order : Order) (changes : OrderChanges) (command : String) : M A Order := do
  let reason := s!"Local emulated stop replaced: {changes.repr}"
  let localId := command ++ ":local"
  let prior ← eventByCommand H localId
  match prior with
  | some e => do
    Prog.lift (replaceReplay e .local order.orderId order.accountId reason command none)
    getOrder H order.orderId
  | none => do
    let ctx ← context H order.orderId
    Prog.lift (replaceQuantity changes.newQuantity ctx.filled (isEquity order.instrument))
    let updated := (replaceTerms order changes).1
    Prog.lift (validateOrderPrices updated.orderType updated.limitPrice updated.stopPrice
      updated.trailAmount)
    let _ ← append H order.accountId .orderUpdated (.orderUpdated ⟨updated, reason, none⟩) localId
    getOrder H order.orderId

/-- Record what the venue answered to a replace of `order` by `updated`. -/
def recordReplaceAck (order updated : Order) (command : String) (ack : VenueAck) : M A Order := do
  let plan := replaceAck ack.status (ack.message.getD "") order.orderId command
  match plan.action with
  | .pending => do
    let _ ← append H order.accountId .orderPending
      (.stateChange ⟨order.orderId, some plan.reason, some ack.venueOrderId⟩)
      (command ++ ":venue-pending")
    getOrder H order.orderId
  | .rejected => do
    let _ ← refuse H order plan.reason (command ++ ":refused")
    restoreWorkingState H order order.state plan.reason ack.venueOrderId (command ++ ":rejected")
    Prog.fail (plan.refusal.getD raised)
  | .accepted => do
    let _ ← append H order.accountId .orderUpdated
      (.orderUpdated ⟨{ updated with state := order.state }, plan.reason, some ack.venueOrderId⟩)
      (command ++ ":accepted")
    getOrder H order.orderId

/-- Ask the venue for the change, with the request appended before the call. -/
def replaceAtVenue (ctx : Context) (updated : Order) (changes : OrderChanges) (command : String) :
    M A Order := do
  let order := ctx.order
  let venueId ← Prog.lift (confirmedId ctx.venueOrderId order.orderId .replace)
  note (.replaceOrder order.accountId order.orderId)
  let _ ← append H order.accountId .orderPending
    (.stateChange ⟨order.orderId, some s!"Replace pending: {changes.repr}", ctx.venueOrderId⟩)
    (command ++ ":pending")
  let answer ← broker H (.replace order.accountId order.orderId) fun n => H.replace n venueId changes
  match answer with
  | none => Prog.fail ⟨.brokerUnknown,
      s!"Replace outcome for order '{order.orderId}' is unknown; reconciliation is required"⟩
  | some ack => recordReplaceAck H order updated command ack

/-- A replace that no earlier request under this command answers. -/
def replaceFresh (ctx : Context) (changes : OrderChanges) (command : String) : M A Order := do
  let order := ctx.order
  Prog.lift (replaceState order)
  Prog.lift (replaceQuantity changes.newQuantity ctx.filled (isEquity order.instrument))
  let terms := replaceTerms order changes
  Prog.lift (validateOrderPrices terms.1.orderType terms.1.limitPrice terms.1.stopPrice
    terms.1.trailAmount)
  if terms.2 then do
    let _ ← append H order.accountId .orderUpdated
      (.orderUpdated ⟨order, s!"No-op replace: {changes.repr}", none⟩) (command ++ ":noop")
    pure order
  else replaceAtVenue H ctx terms.1 changes command

/-- Replays first: the `:pending` request is checked before the `:noop` one. -/
def replace (orderId : String) (changes : OrderChanges) (command : String) : M A Order := do
  let order ← getOrder H orderId
  let ctx ← context H orderId
  if localReplace order ctx.emulation then replaceEmulatedStop H order changes command
  else do
    let request ← eventByCommand H (command ++ ":pending")
    let noop ← eventByCommand H (command ++ ":noop")
    match request, noop with
    | some prior, _ => do
      Prog.lift (replaceReplay prior .pending orderId order.accountId
        s!"Replace pending: {changes.repr}" command (some order.state))
      pure order
    | none, some prior => do
      Prog.lift (replaceReplay prior .noop orderId order.accountId
        s!"No-op replace: {changes.repr}" command none)
      pure order
    | none, none => replaceFresh H ctx changes command

/-! ## Brackets -/

def bracketChildren (entry : String) : M A (List Order) := do
  let order ← getOrder H entry
  let st ← accountState H order.accountId
  pure (children entry st.orders.values)

def openBracketStop (entry : String) : M A (Order × Money) := do
  let order ← getOrder H entry
  let st ← accountState H order.accountId
  Prog.lift (openStop A st order)

/-- A NEW child is submitted; a rejected protective stop then refuses. -/
def submitChild (child : Order) : M A Unit := do
  let current ← getOrder H child.orderId
  if current.state = .new then do
    let submitted ← submit H current
    Prog.lift (stopRejected child.orderType submitted.state child.orderId)
  else pure ()

def ensureChildQuantity (child : Order) (q : Money) (command : String) : M A Unit := do
  let ctx ← context H child.orderId
  let plan ← Prog.lift (childQuantity A ctx.order ctx.filled q)
  match plan with
  | .ret => pure ()
  | .submit => submitChild H ctx.order
  | .local total => do
    let _ ← append H ctx.order.accountId .orderUpdated
      (.orderUpdated ⟨{ ctx.order with quantity := total }, "Sized to confirmed parent fills", none⟩)
      (command ++ ":local-size")
    let again ← getOrder H ctx.order.orderId
    submitChild H again
  | .replace total => do
    let _ ← replace H ctx.order.orderId ⟨some total, none, none⟩ command
    pure ()

/-- One target against its budget. -/
def sizeTarget (cause : String) (item : Order × Money) : M A Unit :=
  let target := item.1
  if target.state = .new then
    if isPositive item.2 then
      ensureChildQuantity H target item.2 (cause ++ ":" ++ target.orderId ++ ":target-size")
    else do
      let _ ← cancelOrder H target (cause ++ ":" ++ target.orderId ++ ":zero-budget")
        "Target has no allocation for the filled entry quantity" false
      pure ()
  else pure ()

/-- One read for each element, in order. -/
def plannedQuantities : List Order → M A (List Money)
  | [] => pure []
  | o :: rest => do
    let planned ← read H (·.plannedOrder o.orderId)
    let more ← plannedQuantities rest
    pure (planned.quantity :: more)

def sizeTargets (entry : Order) (plan : SyncPlan) (cause : String) : M A Unit := do
  let weights ← plannedQuantities H plan.targets
  let planned ← read H (·.plannedOrder entry.orderId)
  let allocated ← Prog.lift (targetWeights A weights planned.quantity)
  let budgets ← Prog.lift (allocateQuantity A plan.entryFilled allocated entry.instrument)
  Prog.forEach (sizeTarget H cause) (plan.targets.zip (budgets.take plan.targets.length))

/-- The stop is resized before the target budgets are computed. -/
def protect (entry : Order) (plan : SyncPlan) (cause : String) : M A Unit := do
  ensureChildQuantity H plan.stop plan.left
    (cause ++ ":" ++ plan.stop.orderId ++ ":protective-stop")
  if syncTargets plan.stopFilled plan.entryTerminal then sizeTargets H entry plan cause else pure ()

/-- A bracket with open quantity is protected; a flat one cancels every exit. -/
def settleExits (entry : Order) (plan : SyncPlan) (cause : String) : M A Unit :=
  if syncMode plan.entryFilled plan.left then protect H entry plan cause
  else cancelExits H (plan.stop :: plan.targets ++ plan.closers)
    (cause ++ ":" ++ entry.orderId ++ ":flat")

/-- Settle the exits; a stop fill then cancels the targets and closers. -/
def synchronizeBracket (changed : Order) (cause : String) : M A Unit := do
  let entry ← (match changed.parentOrderId with
    | some parent => getOrder H parent
    | none => pure changed)
  let st ← accountState H entry.accountId
  let plan ← Prog.lift (sync A st entry.orderId)
  match plan with
  | none => pure ()
  | some plan => do
    settleExits H entry plan cause
    if isPositive plan.stopFilled then
      cancelExits H (plan.targets ++ plan.closers) (cause ++ ":" ++ plan.stop.orderId ++ ":stop-fill")
    else pure ()

/-! ## Commands -/

/-- Fills are recorded before any protection is resized. -/
def recordFill (fill : Fill) : M A Order := do
  let ctx ← context H fill.orderId
  let order := ctx.order
  let env ← call H H.env
  Prog.lift (fillMatch fill.fillId order.orderId order.accountId fill.accountId env fill.venueEnv)
  Prog.lift (validateQuantity order.instrument fill.quantity)
  let _ ← append H order.accountId .fill (.fill fill) ("fill:" ++ fill.fillId)
  synchronizeBracket H order fill.fillId
  getOrder H order.orderId

/-- A protective stop with open quantity is a recorded refusal. -/
def refuseProtective (order : Order) (command : String) : M A Unit :=
  if protectiveChild order.parentOrderId order.orderType then do
    let st ← accountState H order.accountId
    let entry ← getOrder H (order.parentOrderId.getD "")
    let unprotects ← Prog.lift (cancelProtective A st entry order)
    if unprotects then plannedRefusal H order .protective (some command) else pure ()
  else pure ()

def cancel (orderId command : String) : M A Order := do
  let order ← getOrder H orderId
  refuseProtective H order command
  let result ← cancelOrder H order command "Cancelled by OMS command" false
  if order.parentOrderId.isNone then do
    synchronizeBracket H order command
    pure result
  else pure result

/-- Stops only tighten; an unchanged price returns the stop. -/
def moveStop (entry : String) (stopPrice : Money) (command : String) : M A Order := do
  let found ← openBracketStop H entry
  let moves ← Prog.lift (moveStopPlan found.1 stopPrice)
  if moves then replace H found.1.orderId ⟨none, none, some stopPrice⟩ command else pure found.1

/-- A market order that takes quantity out of a bracket. -/
def exitOrder (stop : Order) (id entry command : String) (q : Money) (now : DateTime) : Order :=
  ⟨id, stop.accountId, stop.instrument, .market, stop.side, q, command, now, none, none, none, .day,
    .new, some entry, stop.ocoGroup⟩

/-- A new close is guarded and persisted before it is submitted. -/
def createClose (entry command reason : String) (stop : Order) (left : Money) : M A Order := do
  let exits ← bracketChildren H entry
  Prog.lift (closeGuard entry exits)
  let now ← utcNow H
  let close := exitOrder stop (entry ++ ":close") entry command left now
  let _ ← append H close.accountId .ordersCreated
    (.ordersCreated ⟨[close], H.fingerprintOrder close, s!"Bracket close: {reason}"⟩) command
  pure close

/-- An existing close order is a replay or a conflict. -/
def closeBracket (entry command reason : String) : M A Order := do
  let existing ← findOrder H (entry ++ ":close")
  match existing with
  | some close => do
    let done ← Prog.lift (closeReplay close entry command)
    if done then pure close
    else do
      let _ ← openBracketStop H entry
      submit H close
  | none => do
    let found ← openBracketStop H entry
    let close ← createClose H entry command reason found.1 found.2
    submit H close

/-- Cancel targets before submitting a reduce. -/
def sendReduce (order : Order) (command : String) : M A Order := do
  let exits ← bracketChildren H (order.parentOrderId.getD "")
  cancelExits H (exits.filter (·.orderType = .limit)) (command ++ ":replaces-targets")
  submit H order

def createReduce (entry : String) (fraction : Money) (command reason fingerprint : String) :
    M A Order := do
  let found ← openBracketStop H entry
  let exits ← bracketChildren H entry
  let plan ← Prog.lift (reduce A entry exits found.2 fraction)
  let now ← utcNow H
  let order := exitOrder found.1 plan.2 entry command plan.1 now
  let _ ← append H order.accountId .ordersCreated
    (.ordersCreated ⟨[order], fingerprint, s!"Bracket reduce: {reason}"⟩) command
  pure order

def reduceBracket (entry : String) (fraction : Money) (command reason : String) : M A Order := do
  Prog.lift (checkFraction fraction)
  let entryOrder ← getOrder H entry
  let fingerprint := H.reduceFingerprint entry fraction reason
  let prior ← eventByCommand H command
  match prior with
  | some e => do
    Prog.lift (createdReplay e entryOrder.accountId fingerprint command)
    let first := (e.payload.createdOrders.head?).elim "" (·.orderId)
    let order ← getOrder H first
    sendReduce H order command
  | none => do
    let order ← createReduce H entry fraction command reason fingerprint
    sendReduce H order command

/-- The orders of a new bracket: the entry, its stop, and a target for each price. -/
def bracketOrders (intent : Intent) (q : Money) (targets : List Money) (now : DateTime) :
    List Order :=
  let p := intent.commandId
  let terms := entryTerms intent.entryType intent.side intent.entryPrice intent.entryLimitPrice
  let entry : Order := ⟨p ++ ":entry", intent.accountId, intent.instrument, intent.entryType,
    intent.side, q, p ++ ":entry", now, terms.1, terms.2.1, none, intent.entryTif, .new, none, none⟩
  let exitOf (id : String) (t : OrderType) (size : Money) (limit stop : Option Money) : Order :=
    ⟨id, intent.accountId, intent.instrument, t, terms.2.2, size, id, now, limit, stop, none,
      intent.exitTif, .new, some entry.orderId, some (p ++ ":exits")⟩
  let stop := exitOf (p ++ ":stop") .stop q none (some intent.stopLoss)
  entry :: stop :: (intent.profitTargets.zip targets).zipIdx.map fun ((price, size), i) =>
    exitOf s!"{p}:target:{i + 1}" .limit size (some price) none

/-- Entry, stop and targets are persisted by one event, durable before any venue call. -/
def createBracket (intent : Intent) (q : Money) : M A Bracket := do
  Prog.lift (positiveQuantity q)
  let caps ← call H H.capabilities
  Prog.lift (bracketCapabilities intent.entryType intent.entryTif intent.exitTif caps)
  let fingerprint := H.bracketFingerprint intent q
  let prior ← eventByCommand H intent.commandId
  match prior with
  | some e => do
    Prog.lift (createdReplay e intent.accountId fingerprint intent.commandId)
    bracketFromOrders H e.payload.createdOrders
  | none => do
    let now ← utcNow H
    Prog.lift (validateQuantity intent.instrument q)
    let targets ← Prog.lift (match intent.targetFractions with
      | none => splitQuantity A q intent.profitTargets.length intent.instrument
      | some fs => fractionQuantities A q fs intent.instrument)
    let orders := bracketOrders intent q targets now
    let _ ← append H intent.accountId .ordersCreated
      (.ordersCreated ⟨orders, fingerprint, s!"Bracket created: {intent.reason}"⟩) intent.commandId
    bracketFromOrders H orders

/-! ## Reconciliation -/

/-- A venue fill as a ledger fill, which its constructor checks. -/
def makeFill (order : Order) (env : VenueEnv) (v : VenueFill) : R Fill :=
  if hid : v.venueFillId ≠ "" ∧ order.orderId ≠ "" ∧ order.accountId ≠ "" then
    if hq : 0 < v.quantity.mantissa then
      if hp : 0 < v.price.mantissa then
        .ok ⟨v.venueFillId, order.orderId, order.accountId, v.instrument, v.quantity, v.price, env,
          v.filledAt, v.side, v.fee, v.legId, some v.venueOrderId, some v.venueFillId, hid, hq, hp⟩
      else err .value s!"Fill price must be positive, got {v.price.canon}"
    else err .value s!"Fill quantity must be positive, got {v.quantity.canon}"
  else err .value "fill_id must be non-empty"

def ingestFill (order : Order) (env : VenueEnv) (v : VenueFill) : M A Unit := do
  let fill ← Prog.lift (makeFill order env v)
  let _ ← recordFill H fill
  pure ()

/-- The venue's fills of the found order, in venue order. -/
def ingestVenueFills (order : Order) (found : VenueOrderState) : M A Unit := do
  let fills ← call H fun n => H.fills n order.createdAt
  let env ← call H H.env
  Prog.forEach (ingestFill H order env)
    (fills.filter (·.venueOrderId = found.venueOrderId))
  let ctx ← context H order.orderId
  if found.filledQuantity.gt ctx.filled then do
    let current ← getOrder H order.orderId
    Prog.lift (ingestCheck found.filledQuantity ctx.filled order.orderId current.state)
  else pure ()

/-- Record what the venue's read-back resolves the order to. -/
def resolve (orderId : String) (found : VenueOrderState) : M A Order := do
  let order ← getOrder H orderId
  let action ← Prog.lift (reconcileResult found.state order.state orderId)
  match action with
  | .ret => pure order
  | .updated => do
    let _ ← append H order.accountId .orderUpdated
      (.orderUpdated ⟨{ order with state := .submitted }, "Venue reconciliation confirmed SUBMITTED",
        some found.venueOrderId⟩)
      s!"{order.commandId}:reconcile:{found.updatedAt}:SUBMITTED"
    let resolved ← getOrder H orderId
    synchronizeBracket H resolved (orderId ++ ":reconcile-submitted")
    pure resolved
  | .record kind => do
    let _ ← append H order.accountId kind
      (.stateChange ⟨orderId, some s!"Venue reconciliation confirmed {found.state.value}",
        some found.venueOrderId⟩)
      s!"{order.commandId}:reconcile:{found.updatedAt}:{found.state.value}"
    let resolved ← getOrder H orderId
    synchronizeBracket H resolved (orderId ++ ":reconcile-" ++ found.state.value)
    pure resolved

/-- The terms of a pending replace are not read back; only a terminal order resolves it. -/
def refuseUnresolved (orderId : String) (state found : OrderState) : M A Unit :=
  if state = .pendingUnknown then do
    let unresolved ← read H fun l => .ok (l.hasUnresolvedReplace orderId)
    Prog.lift (reconcileReplace orderId found unresolved)
  else pure ()

/-- Fills before terminal state: missing fills are ingested before the state event. -/
def reconcileOrder (orderId : String) : M A Order := do
  let ctx ← context H orderId
  let rows ← call H fun n => H.orders n ctx.order.createdAt
  let found ← Prog.lift (reconcileFind orderId (ctx.venueOrderId.getD orderId) rows ctx.order.state)
  note (.found orderId)
  refuseUnresolved H orderId ctx.order.state found.state
  if found.filledQuantity.gt ctx.filled then do
    ingestVenueFills H ctx.order found
    resolve H orderId found
  else resolve H orderId found

/-! ## Runs -/

inductive Command where
  | createBracket (intent : Intent) (q : Money)
  | submit (order : Order)
  | submitTrailing (order : Order)
  | updateTrailing (orderId : String) (price : Money) (command : String)
  | updateEmulatedOrder (orderId : String) (price : Money) (command : String)
  | recordFill (fill : Fill)
  | cancel (orderId command : String)
  | moveStop (entry : String) (stopPrice : Money) (command : String)
  | closeBracket (entry command reason : String)
  | reduceBracket (entry : String) (fraction : Money) (command reason : String)
  | replace (orderId : String) (changes : OrderChanges) (command : String)
  | reconcileOrder (orderId : String)

/-- One command; what it returns is an order, or nothing for a bracket. -/
def Command.run : Command → M A (Option Order)
  | .createBracket intent q => do let _ ← Oms.createBracket H intent q; pure none
  | .submit order => some <$> Oms.submit H order
  | .submitTrailing order => some <$> Oms.submitTrailing H order
  | .updateTrailing id price command => some <$> Oms.updateTrailing H id price command
  | .updateEmulatedOrder id price command => some <$> Oms.updateEmulatedOrder H id price command
  | .recordFill fill => some <$> Oms.recordFill H fill
  | .cancel id command => some <$> Oms.cancel H id command
  | .moveStop entry price command => some <$> Oms.moveStop H entry price command
  | .closeBracket entry command reason => some <$> Oms.closeBracket H entry command reason
  | .reduceBracket entry fraction command reason =>
    some <$> Oms.reduceBracket H entry fraction command reason
  | .replace id changes command => some <$> Oms.replace H id changes command
  | .reconcileOrder id => some <$> Oms.reconcileOrder H id

/-- Commands one after another from an empty ledger; each starts on what the last one left, however
it ended. -/
def runCommands (A : Arith) (commands : List Command) : World A :=
  commands.foldl (fun w c => (c.run H w).2) .opened

end TradeEngine.Oms
