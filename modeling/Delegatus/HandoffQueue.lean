import Delegatus.Runs
import Delegatus.Table
import Mathlib.Data.List.Sort

/-!
# The blue-green handoff queue

The durable state machine that carries active conversations across a promotion
(`HandoffQueue`).  A conversation's lease is one active row; the row names the
generation that hosts the conversation, the deliveries that wait for the successor, and
the deliveries a successor has acknowledged.  A row that a newer enqueue replaces moves
to the history and stays there.

Every method of the class is one atomic read-modify-write cycle of the store
(`mutate`): the active rows are loaded into a map keyed by operation id, the method
works on the map, and the map's values are saved back.  A method's clock reading is its
argument `now`.
-/

namespace Delegatus.HandoffQueue

inductive HandoffEngine where
  | claude
  | codex
  | copilot
  deriving DecidableEq

inductive HandoffKind where
  | root
  | engineNativeChild
  deriving DecidableEq

inductive HandoffStatus where
  | pending
  | draining
  | claimed
  | terminal
  | failed
  deriving DecidableEq

inductive HandoffTurnState where
  | busy
  | idle
  | terminal
  | unknown
  deriving DecidableEq

inductive HandoffInterruptionOutcome where
  | completed
  | interrupted
  deriving DecidableEq

/-- One ordered pending delivery for a conversation. `seq` is the durable order. -/
structure HandoffDelivery where
  deliveryId : String
  clientMessageId : Option String
  seq : Int
  deriving DecidableEq

/-- The pre-promotion projection of one conversation's durable ownership. -/
structure HandoffRowInput where
  operationId : String
  conversationId : String
  engine : HandoffEngine
  engineSessionId : String
  kind : HandoffKind
  parentConversationId : Option String
  hostGeneration : String
  accountId : Option String
  turnState : HandoffTurnState
  pendingDeliveries : List HandoffDelivery
  deriving DecidableEq

structure HandoffRow extends HandoffRowInput where
  status : HandoffStatus
  predecessorGeneration : Option String
  successorGeneration : Option String
  replayedDeliveryIds : List String
  interruptionOutcome : Option HandoffInterruptionOutcome
  lastError : Option String
  enqueuedAt : String
  updatedAt : String
  deriving DecidableEq

structure ClaimFence where
  fromGeneration : String
  toGeneration : String

inductive ClaimReason where
  | notFound
  | generationFence

structure ClaimResult where
  ok : Bool
  row : Option HandoffRow
  replay : List HandoffDelivery
  reason : Option ClaimReason

structure HandoffQueueStoreState where
  rows : List HandoffRow
  history : List HandoffRow
  drainingGenerations : List String

/-- The store before anything was written. -/
def emptyStore : HandoffQueueStoreState := ⟨[], [], []⟩

/-! ### Deliveries -/

/-- Stable sort by `seq`. -/
def orderedDeliveries (deliveries : List HandoffDelivery) : List HandoffDelivery :=
  deliveries.insertionSort (fun left right => left.seq ≤ right.seq)

/-- `delivery.deliveryId` of each delivery. -/
def deliveryIds (deliveries : List HandoffDelivery) : List String :=
  deliveries.map HandoffDelivery.deliveryId

/-- `map((delivery, index) => ({ ...delivery, seq: index + 1 }))`. -/
def renumbered (deliveries : List HandoffDelivery) : List HandoffDelivery :=
  deliveries.mapIdx (fun index delivery => { delivery with seq := (index : Int) + 1 })

def replacementDeliveries (previous : HandoffRow) (incoming : List HandoffDelivery) :
    List HandoffDelivery :=
  let acknowledgedIds := previous.replayedDeliveryIds
  let pendingIncoming :=
    (orderedDeliveries incoming).filter (fun delivery => delivery.deliveryId ∉ acknowledgedIds)
  let incomingIds := deliveryIds pendingIncoming
  let unacknowledged :=
    ((orderedDeliveries previous.pendingDeliveries).filter
      (fun delivery => delivery.deliveryId ∉ acknowledgedIds)).filter
      (fun delivery => delivery.deliveryId ∉ incomingIds)
  renumbered (unacknowledged ++ pendingIncoming)

def acknowledgedDeliveryIds (history : List HandoffRow) (conversationId : String) :
    List String :=
  ((history.filter (fun row => row.conversationId = conversationId)).flatMap
    HandoffRow.replayedDeliveryIds).eraseDups

def terminalStatusFor (turnState : HandoffTurnState) : HandoffStatus :=
  if turnState = .terminal then .terminal else .claimed

def outcomeFor (turnState : HandoffTurnState) : Option HandoffInterruptionOutcome :=
  if turnState = .terminal then some .completed
  else if turnState = .busy then some .interrupted
  else none

/-! ### One read-modify-write cycle -/

/-- The active rows keyed by operation id, as a mutation sees them. -/
abbrev RowsById := Table (fun row : HandoffRow => row.operationId)

/-- `HandoffQueue.mutate` over a transactional store.  The draining generations are
saved through a `Set`. -/
def mutate {τ : Type} (state : HandoffQueueStoreState)
    (mutation : RowsById → HandoffQueueStoreState →
      RowsById × HandoffQueueStoreState × τ) : HandoffQueueStoreState × τ :=
  let (rowsById, changed, result) := mutation (Table.ofList state.rows) state
  ({ rows := rowsById.rows
     history := changed.history
     drainingGenerations := changed.drainingGenerations.eraseDups }, result)

/-! ### The methods -/

/-- The row that `enqueue` creates for `input`; `active` is the row it replaces. -/
def enqueuedRow (history : List HandoffRow) (active : Option HandoffRow)
    (input : HandoffRowInput) (now : String) : HandoffRow :=
  { input with
    pendingDeliveries :=
      match active with
      | some active => replacementDeliveries active input.pendingDeliveries
      | none => orderedDeliveries input.pendingDeliveries
    status := .pending
    predecessorGeneration := none
    successorGeneration := none
    replayedDeliveryIds := acknowledgedDeliveryIds history input.conversationId
    interruptionOutcome := none
    lastError := none
    enqueuedAt := now
    updatedAt := now }

/-- The operation id is already known, among the active rows or in the history. -/
def knownOperation (rowsById : RowsById) (history : List HandoffRow) (operationId : String) :
    Bool :=
  rowsById.has operationId || history.any (fun row => row.operationId = operationId)

/-- The conversation's active row, as `find` meets it. -/
def activeRow (rowsById : RowsById) (conversationId : String) : Option HandoffRow :=
  rowsById.rows.find? (fun row => row.conversationId = conversationId)

/-- One iteration of the `for (const input of inputs)` loop of `enqueue`. -/
def enqueueInput (now : String) (acc : RowsById × List HandoffRow) (input : HandoffRowInput) :
    RowsById × List HandoffRow :=
  let (rowsById, history) := acc
  if knownOperation rowsById history input.operationId then (rowsById, history)
  else
    match activeRow rowsById input.conversationId with
    | some active =>
      if active.status = .pending ∨ active.status = .draining then (rowsById, history)
      else
        let history := history ++ [active]
        ((rowsById.delete active.operationId).set
          (enqueuedRow history (some active) input now), history)
    | none => (rowsById.set (enqueuedRow history none input now), history)

/-- Persist active conversations before promotion.  Idempotent by operation id. -/
def enqueue (inputs : List HandoffRowInput) (now : String) (state : HandoffQueueStoreState) :
    HandoffQueueStoreState × Unit :=
  mutate state fun rowsById state =>
    let (rowsById, history) := inputs.foldl (enqueueInput now) (rowsById, state.history)
    (rowsById, { state with history := history }, ())

/-- What `beginDrain` does to one row. -/
def drainRow (generation now : String) (row : HandoffRow) : HandoffRow :=
  if row.hostGeneration ≠ generation then row
  else if row.status ≠ .pending ∧ row.status ≠ .claimed then row
  else { row with status := .draining, updatedAt := now }

theorem drainRow_operationId (generation now : String) (row : HandoffRow) :
    (drainRow generation now row).operationId = row.operationId := by
  unfold drainRow
  split
  · rfl
  · split <;> rfl

/-- Put the outgoing generation into draining. -/
def beginDrain (generation now : String) (state : HandoffQueueStoreState) :
    HandoffQueueStoreState × Unit :=
  mutate state fun rowsById state =>
    let drainingGenerations :=
      if generation ∈ state.drainingGenerations then state.drainingGenerations
      else state.drainingGenerations ++ [generation]
    (rowsById.mapRows (drainRow generation now) (drainRow_operationId generation now),
      { state with drainingGenerations := drainingGenerations }, ())

/-- A draining generation rejects new host admissions. -/
def isAdmittingNewHosts (generation : String) (state : HandoffQueueStoreState) : Bool :=
  generation ∉ state.drainingGenerations

/-- The row after an admitted message. -/
def admittedRow (delivery : HandoffDelivery) (now : String) (row : HandoffRow) : HandoffRow :=
  { row with
    pendingDeliveries := orderedDeliveries (row.pendingDeliveries ++ [delivery])
    updatedAt := now }

theorem admittedRow_operationId (delivery : HandoffDelivery) (now : String) (row : HandoffRow) :
    (admittedRow delivery now row).operationId = row.operationId := rfl

/-- Enqueue a new message into the durable queue. -/
def admitMessage (operationId : String) (delivery : HandoffDelivery) (now : String)
    (state : HandoffQueueStoreState) : HandoffQueueStoreState × Bool :=
  mutate state fun rowsById state =>
    match rowsById.get? operationId with
    | none => (rowsById, state, false)
    | some row =>
      if row.status = .terminal then (rowsById, state, false)
      else if delivery.deliveryId ∈ deliveryIds row.pendingDeliveries then
        (rowsById, state, true)
      else
        (rowsById.modify operationId (admittedRow delivery now)
          (admittedRow_operationId delivery now), state, true)

/-- The row after a refreshed turn boundary. -/
def refreshedRow (turnState : HandoffTurnState) (now : String) (row : HandoffRow) : HandoffRow :=
  { row with turnState := turnState, updatedAt := now }

theorem refreshedRow_operationId (turnState : HandoffTurnState) (now : String) (row : HandoffRow) :
    (refreshedRow turnState now row).operationId = row.operationId := rfl

/-- Persist the outgoing host's latest turn boundary under its lease fence. -/
def refreshTurnState (operationId generation : String) (turnState : HandoffTurnState)
    (now : String) (state : HandoffQueueStoreState) : HandoffQueueStoreState × Bool :=
  mutate state fun rowsById state =>
    match rowsById.get? operationId with
    | none => (rowsById, state, false)
    | some row =>
      if row.hostGeneration ≠ generation ∨
          (row.status ≠ .pending ∧ row.status ≠ .draining) then (rowsById, state, false)
      else if row.turnState = .terminal ∧ turnState ≠ .terminal then (rowsById, state, false)
      else
        (rowsById.modify operationId (refreshedRow turnState now)
          (refreshedRow_operationId turnState now), state, true)

/-- The row after its lease moved to the fence's target. -/
def transferredRow (fence : ClaimFence) (now : String) (row : HandoffRow) : HandoffRow :=
  { row with
    predecessorGeneration := some fence.fromGeneration
    successorGeneration := some fence.toGeneration
    hostGeneration := fence.toGeneration
    status := terminalStatusFor row.turnState
    interruptionOutcome := outcomeFor row.turnState
    updatedAt := now }

theorem transferredRow_operationId (fence : ClaimFence) (now : String) (row : HandoffRow) :
    (transferredRow fence now row).operationId = row.operationId := rfl

/-- The deliveries a successor must replay: the pending ones without an acknowledgement. -/
def replayOf (row : HandoffRow) : List HandoffDelivery :=
  (orderedDeliveries row.pendingDeliveries).filter
    (fun delivery => delivery.deliveryId ∉ row.replayedDeliveryIds)

/-- The successor of the fence already owns the row: the claim is repeated. -/
def alreadyClaimed (row : HandoffRow) (fence : ClaimFence) : Bool :=
  row.successorGeneration = some fence.toGeneration ∧
    (row.status = .claimed ∨ row.status = .terminal)

/-- Transfer one conversation lease behind a compare-and-swap generation fence. -/
def claim (operationId : String) (fence : ClaimFence) (now : String)
    (state : HandoffQueueStoreState) : HandoffQueueStoreState × ClaimResult :=
  mutate state fun rowsById state =>
    match rowsById.get? operationId with
    | none => (rowsById, state, ⟨false, none, [], some .notFound⟩)
    | some row =>
      if alreadyClaimed row fence then (rowsById, state, ⟨true, some row, replayOf row, none⟩)
      else if row.hostGeneration ≠ fence.fromGeneration then
        (rowsById, state, ⟨false, some row, [], some .generationFence⟩)
      else
        (rowsById.modify operationId (transferredRow fence now)
          (transferredRow_operationId fence now), state,
          ⟨true, some (transferredRow fence now row), replayOf row, none⟩)

/-- The row after acknowledged deliveries. -/
def acknowledgedRow (ids : List String) (now : String) (row : HandoffRow) : HandoffRow :=
  { row with
    replayedDeliveryIds := (row.replayedDeliveryIds ++ ids).eraseDups
    updatedAt := now }

theorem acknowledgedRow_operationId (ids : List String) (now : String) (row : HandoffRow) :
    (acknowledgedRow ids now row).operationId = row.operationId := rfl

/-- Records confirmed idempotent delivery under the successor ownership fence. -/
def acknowledgeReplay (operationId successorGeneration : String) (ids : List String)
    (now : String) (state : HandoffQueueStoreState) : HandoffQueueStoreState × Bool :=
  mutate state fun rowsById state =>
    match rowsById.get? operationId with
    | none => (rowsById, state, false)
    | some row =>
      if row.successorGeneration ≠ some successorGeneration ∨
          (row.status ≠ .claimed ∧ row.status ≠ .terminal) then (rowsById, state, false)
      else if ids.any (fun id => id ∉ deliveryIds row.pendingDeliveries) then
        (rowsById, state, false)
      else (rowsById.modify operationId (acknowledgedRow ids now)
          (acknowledgedRow_operationId ids now), state, true)

/-- The status of a row released to `predecessor`; an empty generation is no generation. -/
def releasedStatus (draining : List String) (predecessor : Option String) : HandoffStatus :=
  match predecessor with
  | some generation =>
    if generation ≠ "" ∧ generation ∈ draining then .draining else .pending
  | none => .pending

/-- What `failCandidate` does to one row. -/
def releaseRow (state : HandoffQueueStoreState) (toGeneration now : String)
    (row : HandoffRow) : HandoffRow :=
  if row.successorGeneration ≠ some toGeneration then row
  else
    { row with
      hostGeneration := row.predecessorGeneration.getD row.hostGeneration
      status := releasedStatus state.drainingGenerations row.predecessorGeneration
      predecessorGeneration := none
      successorGeneration := none
      replayedDeliveryIds := acknowledgedDeliveryIds state.history row.conversationId
      interruptionOutcome := none
      updatedAt := now }

theorem releaseRow_operationId (state : HandoffQueueStoreState) (toGeneration now : String)
    (row : HandoffRow) :
    (releaseRow state toGeneration now row).operationId = row.operationId := by
  unfold releaseRow
  split <;> rfl

/-- A failed candidate releases every row it claimed to the row's predecessor. -/
def failCandidate (toGeneration now : String) (state : HandoffQueueStoreState) :
    HandoffQueueStoreState × Unit :=
  mutate state fun rowsById state =>
    (rowsById.mapRows (releaseRow state toGeneration now)
      (releaseRow_operationId state toGeneration now), state, ())

/-- The row after a recorded retryable failure. -/
def failedRow (error now : String) (row : HandoffRow) : HandoffRow :=
  { row with status := .failed, lastError := some error, updatedAt := now }

theorem failedRow_operationId (error now : String) (row : HandoffRow) :
    (failedRow error now row).operationId = row.operationId := rfl

/-- Record an explicit retryable handoff failure. -/
def markRetryableFailure (operationId error now : String) (state : HandoffQueueStoreState) :
    HandoffQueueStoreState × Unit :=
  mutate state fun rowsById state =>
    match rowsById.get? operationId with
    | none => (rowsById, state, ())
    | some _ => (rowsById.modify operationId (failedRow error now)
          (failedRow_operationId error now), state, ())

/-- The outgoing generation owns no row that is still pending or draining. -/
def retirable (outgoingGeneration : String) (state : HandoffQueueStoreState) : Bool :=
  state.rows.all (fun row =>
    row.hostGeneration ≠ outgoingGeneration ∨ (row.status ≠ .pending ∧ row.status ≠ .draining))

/-! ### Runs -/

/-- One call of a queue method with its arguments and its clock reading. -/
inductive HandoffOp where
  | enqueue (inputs : List HandoffRowInput) (now : String)
  | beginDrain (generation now : String)
  | admitMessage (operationId : String) (delivery : HandoffDelivery) (now : String)
  | refreshTurnState (operationId generation : String) (turnState : HandoffTurnState)
      (now : String)
  | claim (operationId : String) (fence : ClaimFence) (now : String)
  | acknowledgeReplay (operationId successorGeneration : String) (ids : List String)
      (now : String)
  | failCandidate (toGeneration now : String)
  | markRetryableFailure (operationId error now : String)

/-- What a call returns. -/
inductive HandoffAnswer where
  | none
  | accepted (value : Bool)
  | claimed (result : ClaimResult)

/-- One call against the store. -/
def step (state : HandoffQueueStoreState) : HandoffOp → HandoffQueueStoreState × HandoffAnswer
  | .enqueue inputs now => ((enqueue inputs now state).1, .none)
  | .beginDrain generation now => ((beginDrain generation now state).1, .none)
  | .admitMessage operationId delivery now =>
      let (state, answer) := admitMessage operationId delivery now state
      (state, .accepted answer)
  | .refreshTurnState operationId generation turnState now =>
      let (state, answer) := refreshTurnState operationId generation turnState now state
      (state, .accepted answer)
  | .claim operationId fence now =>
      let (state, answer) := claim operationId fence now state
      (state, .claimed answer)
  | .acknowledgeReplay operationId successorGeneration ids now =>
      let (state, answer) := acknowledgeReplay operationId successorGeneration ids now state
      (state, .accepted answer)
  | .failCandidate toGeneration now => ((failCandidate toGeneration now state).1, .none)
  | .markRetryableFailure operationId error now =>
      ((markRetryableFailure operationId error now state).1, .none)

/-- The store after the calls of `ops`, made in order on an empty store. -/
def run (ops : List HandoffOp) : HandoffQueueStoreState :=
  Runs.after step emptyStore ops

end Delegatus.HandoffQueue
