import Delegatus.NativeQueueEntries
import Delegatus.Runs

/-!
# Native queue entries under the runtime journal

The runtime journal calls the native queue inside its own transactions: it admits a command
together with its operation's row, reads the command of a transition from that row, settles
an entry by compacted proof only where no row is left, and its compaction deletes rows but
none that a hold names.  So an operation id is admitted once while it matters, and a
transition carries the command that its operation was admitted with.

A call whose transaction throws, in the native queue or after it, rolls back.
-/

namespace Delegatus.NativeQueue

open JsonText (Json)

/-! ### Calls -/

/-- A `send`; `queueing` is `policy === "queue" && !onlyIfIdle`. -/
structure Send where
  conversationId : String
  text : Option String
  images : Option (List Json)
  contentDigest : Option String
  runtime : Option Json
  selectedContext : Option Json
  origin : Option Json
  queueing : Bool

/-- `RuntimeOperationCommand`. -/
inductive Request where
  | native (command : Command)
  | send (message : Send)
  | other (conversationId : String)

def Request.conversationId : Request → String
  | .native command => command.conversationId
  | .send message => message.conversationId
  | .other conversationId => conversationId

/-- A row of `operations`. -/
structure Operation where
  operationId : Id
  idempotencyKey : String
  request : Request

/-- The runtime journal, as far as the native queue goes. -/
structure State where
  queue : Queue
  operations : Table Operation.operationId

def State.start : State where
  queue := ⟨Table.empty, Table.empty⟩
  operations := Table.empty

inductive Call where
  /-- `executeOperation`.  `session` is the binding of a codex session that has the native
  queue, and `rejected` what the receipt says. -/
  | execute (operationId : Id) (idempotencyKey : String) (request : Request)
      (session : Option Binding) (rejected : Bool)
  /-- `nativeQueueTransition`. -/
  | transition (operationId : Id) (transition : Transition)
  /-- `nativeQueueSettleCompacted`. -/
  | settleCompacted (request : CompactedProof)
  /-- `compact`, of the operations that nothing but a hold keeps. -/
  | compact (operationIds : List Id)
  | reopen

inductive Answer where
  | done
  /-- The idempotency key is known: a replay, or a conflict. -/
  | known
  | refused (message : String)
  | saved (entry : Option Record)

/-- The add that a queued `send` becomes. -/
def Send.add (message : Send) (binding : Binding) : Command where
  conversationId := message.conversationId
  action := .add
  binding := binding
  entryId := none
  expectedRevision := none
  text := message.text
  images := message.images
  contentDigest := message.contentDigest
  runtime := message.runtime
  selectedContext := message.selectedContext
  origin := message.origin

/-- `nativeCommandAtAdmission`. -/
def nativeCommandAtAdmission (request : Request) (session : Option Binding) : Option Command :=
  match request with
  | .native command => some command
  | .send message => if message.queueing then session.map message.add else none
  | .other _ => none

/-- `command`: what a transition of the operation is about.  An add follows its entry. -/
def Queue.command (q : Queue) (request : Request) (operationId : Id) : Option Command :=
  match request with
  | .native command =>
    if command.action ≠ .add then some command
    else match q.entries.get? operationId with
      | none => some command
      | some entry => some { command with binding := entry.binding }
  | .send message => (q.entries.get? operationId).map fun entry => message.add entry.binding
  | .other _ => none

/-- `executeOperation`, up to the operation's row. -/
def execute (s : State) (operation : Operation) (session : Option Binding) (rejected : Bool) :
    State × Answer :=
  if s.operations.rows.any fun row => row.request.conversationId = operation.request.conversationId
      && row.idempotencyKey = operation.idempotencyKey then (s, .known)
  else if s.operations.has operation.operationId then
    (s, .refused "operationId already belongs to another request")
  else if s.queue.retains operation.operationId then
    (s, .refused "operationId belongs to a retained native queue entry whose operation was compacted")
  else
    let operations := s.operations.set operation
    match nativeCommandAtAdmission operation.request session with
    | none => ({ s with operations := operations }, .saved none)
    | some command =>
      if rejected then ({ s with operations := operations }, .saved none)
      else match s.queue.admitCommand command operation.operationId with
        | .error message => (s, .refused message)
        | .ok (entry, queue) => (⟨queue, operations⟩, .saved entry)

section

variable (inputMatches : Version → List Json → Bool)

/-- One call. -/
def step (s : State) (call : Call) : State × Answer :=
  match call with
  | .execute operationId idempotencyKey request session rejected =>
    execute s ⟨operationId, idempotencyKey, request⟩ session rejected
  | .transition operationId transition =>
    match s.operations.get? operationId with
    | none => (s, .refused "runtime operation is unknown")
    | some operation =>
      match s.queue.command operation.request operationId with
      | none => (s, .refused "operation is not a native queue mutation")
      | some command =>
        match s.queue.transition inputMatches command operationId transition with
        | .error message => (s, .refused message)
        | .ok (entry, queue) => ({ s with queue := queue }, .saved entry)
  | .settleCompacted request =>
    if (truthy (some request.entryId)).any s.operations.has then
      (s, .refused "native queue operation is retained; settle it through its operation")
    else match s.queue.proveCompacted request with
      | .error message => (s, .refused message)
      | .ok (entry, _, queue) => ({ s with queue := queue }, .saved (some entry))
  | .compact operationIds =>
    ({ s with operations := s.operations.filter fun operation =>
      operation.operationId ∉ operationIds || s.queue.holds.has operation.operationId }, .done)
  | .reopen => ({ s with queue := s.queue.rebuild }, .done)

end

end Delegatus.NativeQueue
