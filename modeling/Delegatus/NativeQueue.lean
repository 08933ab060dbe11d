import Delegatus.JsonText
import Delegatus.Refusals
import Delegatus.Table

/-!
# The native queue journal

A native queue entry is one message that the Viewer hands to the engine's own queue: its
versions, the mutation that is under way on it, the native submission that carries it, and
the canonical proof that settles it.  The journal keeps the entries, and beside them the ids
of the operations that an entry still has to be answered through.

Every method runs in the runtime journal's transaction, so one that throws leaves the
journal as it was.  An identity is a string that is not empty; content that the journal
carries and does not read is JSON.
-/

namespace Delegatus.NativeQueue

open JsonText (Json)

/-! ### Data -/

/-- An identity: a string that is not empty. -/
abbrev Id := { text : String // text ≠ "" }

/-- A value that may be missing, as a condition reads it: the empty string is no identity. -/
def truthy (text : Option String) : Option Id :=
  text.bind fun text => if h : text ≠ "" then some ⟨text, h⟩ else none

inductive Action where
  | add
  | update
  | delete
  | reorder
  | start
  | sendNow
deriving DecidableEq

/-- `NativeQueueBinding`; two bindings are the same where both fields are. -/
structure Binding where
  threadId : String
  accountId : Option String
deriving DecidableEq

/-- `NativeQueueCommand`, its own keys and what only the executor reads apart. -/
structure Command where
  conversationId : String
  action : Action
  binding : Binding
  entryId : Option String
  expectedRevision : Option Nat
  text : Option String
  images : Option (List Json)
  contentDigest : Option String
  runtime : Option Json
  selectedContext : Option Json
  origin : Option Json

/-- `NativeQueueVersion`. -/
structure Version where
  revision : Nat
  operationId : Id
  text : Option String
  images : List Json
  contentDigest : Option String
  requestedRuntime : Option Json
  selectedContext : Option Json
  origin : Option Json
  /-- Prepared before the first native write. -/
  input : Option (List Json)

/-- `NativeQueueProof`, as `canonicalNativeQueueProof` gives it. -/
structure Proof where
  threadId : Id
  clientUserMessageId : Id
  revision : Nat
  turnId : Id
  itemId : Id
  input : List Json
deriving DecidableEq

inductive EntryState where
  | admitted
  | queued
  | dispatching
  | withdrawn
  | removed
  | uncertain
  | delivered
  | refused
deriving DecidableEq

/-- `SETTLED_STATES.includes`. -/
def EntryState.settled (state : EntryState) : Bool :=
  state = .delivered || state = .removed || state = .refused

/-- `NativeQueueRecord`. -/
structure Record where
  entryId : Id
  conversationId : String
  binding : Binding
  clientUserMessageId : Id
  nativeSubmissionId : Option Id
  revision : Nat
  versions : List Version
  state : EntryState
  mutationOperationId : Option Id
  dispatchedRevision : Option Nat
  dispatchedTurnId : Option Id
  proof : Option Proof
  reason : Option String

/-- A proof as the checks of its fields see it: a field is missing where its type is another
one.  `revision` is a safe integer, and every item of `input` an object. -/
structure ProofCandidate where
  threadId : Option String
  clientUserMessageId : Option String
  revision : Option Int
  turnId : Option String
  itemId : Option String
  input : Option (List Json)

/-- A binding as the checks of its fields see it; `accountId` may be `null`. -/
structure BindingCandidate where
  threadId : Option String
  accountId : Option (Option String)

/-- `NativeQueueTransition`. -/
inductive Transition where
  /-- `input` is missing where it is not an array. -/
  | prepared (input : Option (List Json)) (binding : Option BindingCandidate)
  | seatWithdrawal (reason : String)
  | acknowledged (nativeSubmissionId turnId : Option String) (deleted : Bool)
  | deferred (reason : String)
  | observedQueued (id clientUserMessageId : String) (input : List Json)
  | withdrawn
  | removed
  | refused (reason : String)
  | uncertain (reason : String)
  | proven (proof : ProofCandidate)

/-- `NativeQueueCompactedProof`. -/
structure CompactedProof where
  conversationId : String
  entryId : String
  binding : Binding
  proof : ProofCandidate

/-- A row of `native_queue_operation_holds`. -/
structure Hold where
  operationId : Id
  entryId : Id

/-- `native_queue_entries` and `native_queue_operation_holds`. -/
structure Queue where
  entries : Table Record.entryId
  holds : Table Hold.operationId

/-! ### Entries and holds -/

/-- The operation ids an entry still has to be answered through. -/
def heldOperationIds (entry : Record) : List Id :=
  (if entry.state.settled then [] else [entry.entryId]) ++
    (entry.mutationOperationId.filter (· ≠ entry.entryId)).toList

/-- A reorder names no entry, and a start may name none. -/
def entryTargeted (command : Command) : Bool :=
  match command.action with
  | .reorder => false
  | .add => true
  | _ => command.entryId.isSome

def currentVersion (entry : Record) : Option Version :=
  entry.versions.find? (·.revision = entry.revision)

/-- `get`. -/
def Queue.get (q : Queue) (id : Option Id) : Except String Record :=
  match id.bind q.entries.get? with
  | some entry => .ok entry
  | none => .error "native queue entry is unknown"

/-- `save`. -/
def Queue.save (q : Queue) (entry : Record) : Queue where
  entries := q.entries.set entry
  holds := ((heldOperationIds entry).map fun operationId => ⟨operationId, entry.entryId⟩).foldl
    Table.insertOrIgnore (q.holds.filter fun hold => hold.entryId ≠ entry.entryId)

/-- What a constructor makes of the holds: first the entries that are not settled, then the
mutations under way. -/
def Queue.rebuild (q : Queue) : Queue :=
  let own := (q.entries.rows.filter fun entry => !entry.state.settled).map fun entry =>
    (⟨entry.entryId, entry.entryId⟩ : Hold)
  let mutations := q.entries.rows.flatMap fun entry =>
    (entry.mutationOperationId.filter (· ≠ entry.entryId)).toList.map fun operationId =>
      (⟨operationId, entry.entryId⟩ : Hold)
  { q with holds := (own ++ mutations).foldl Table.insertOrIgnore Table.empty }

/-- `retains`. -/
def Queue.retains (q : Queue) (operationId : Id) : Bool := q.entries.has operationId

/-- The entries of a conversation that are not settled. -/
def Queue.unresolved (q : Queue) (conversationId : String) : List Record :=
  q.entries.rows.filter fun entry => entry.conversationId = conversationId && !entry.state.settled

/-- `if (!entry.proof) entry.state = state`. -/
def Record.moveTo (entry : Record) (state : EntryState) : Record :=
  if entry.proof.isSome then entry else { entry with state := state }

/-! ### Proof -/

def MAX_SAFE_INTEGER : Int := 2 ^ 53 - 1

def isObject : Json → Bool
  | .object _ => true
  | _ => false

/-- `canonicalNativeQueueProof`. -/
def canonicalNativeQueueProof (value : ProofCandidate) : Option Proof := do
  let threadId ← truthy value.threadId
  let clientUserMessageId ← truthy value.clientUserMessageId
  let turnId ← truthy value.turnId
  let itemId ← truthy value.itemId
  let revision ← value.revision
  let input ← value.input
  if revision < 1 || MAX_SAFE_INTEGER < revision || input.isEmpty || !input.all isObject then none
  else some ⟨threadId, clientUserMessageId, revision.toNat, turnId, itemId, input⟩

/-- `prove`: canonical proof of one retained version. -/
def prove (entry : Record) (candidate : ProofCandidate) : Except String Record :=
  match canonicalNativeQueueProof candidate with
  | none => .error "native queue canonical proof is malformed"
  | some proof =>
    let version := entry.versions.find? (·.revision = proof.revision)
    if entry.dispatchedTurnId.any (· ≠ proof.turnId)
        || proof.threadId.val ≠ entry.binding.threadId
        || proof.clientUserMessageId ≠ entry.clientUserMessageId
        || version.bind Version.input ≠ some proof.input then
      .error "native queue canonical proof mismatch"
    else if entry.proof.any (· ≠ proof) then .error "native queue canonical proof conflict"
    else
      -- a mutation other than the add keeps its own identity until it answers
      let mutation := entry.mutationOperationId.filter (· ≠ entry.entryId)
      .ok { entry with
        proof := some proof
        dispatchedRevision := some proof.revision
        dispatchedTurnId := some proof.turnId
        state := .delivered
        mutationOperationId := mutation
        reason := none }

/-- `proveCompacted`: the entry, whether the proof had settled it before, and the journal. -/
def Queue.proveCompacted (q : Queue) (request : CompactedProof) :
    Except String (Record × Bool × Queue) := do
  let entry ← q.get (truthy (some request.entryId))
  if entry.clientUserMessageId ≠ entry.entryId then
    .error "native queue entry is not an original add identity"
  else if entry.conversationId ≠ request.conversationId || entry.binding ≠ request.binding then
    .error "native queue entry ownership changed"
  else match canonicalNativeQueueProof request.proof with
    | none => .error "native queue canonical proof is malformed"
    | some proof =>
      if entry.proof.isSome then
        if entry.proof ≠ some proof then .error "native queue canonical proof conflict"
        else .ok (entry, true, q)
      else if entry.state ≠ .admitted && entry.state ≠ .queued && entry.state ≠ .dispatching
          && entry.state ≠ .uncertain then
        .error "native queue entry is not awaiting canonical proof"
      else if entry.mutationOperationId.any (· ≠ entry.entryId) then
        .error "native queue entry has an unresolved mutation"
      else if proof.revision ≠ entry.dispatchedRevision.getD entry.revision then
        .error "native queue canonical proof names another version"
      else do
        -- the canonical form of a canonical proof is the proof
        let proven ← prove entry request.proof
        .ok (proven, false, q.save proven)

/-! ### Admission -/

/-- The version that an add or an update pushes. -/
def newVersion (command : Command) (operationId : Id) (revision : Nat) (base : Option Version) :
    Version where
  revision := revision
  operationId := operationId
  text := command.text
  images := command.images.getD []
  contentDigest := command.contentDigest
  requestedRuntime := command.runtime
  selectedContext := command.selectedContext <|> base.bind Version.selectedContext
  origin := command.origin <|> base.bind Version.origin
  input := none

/-- The entry of an add. -/
def newEntry (command : Command) (operationId : Id) : Record where
  entryId := operationId
  conversationId := command.conversationId
  binding := command.binding
  clientUserMessageId := operationId
  nativeSubmissionId := none
  revision := 1
  versions := [newVersion command operationId 1 none]
  state := .admitted
  mutationOperationId := some operationId
  dispatchedRevision := none
  dispatchedTurnId := none
  proof := none
  reason := none

/-- `admit` of a command on an entry that is there. -/
def admitMutation (entry : Record) (command : Command) (operationId : Id) :
    Except String Record :=
  if entry.conversationId ≠ command.conversationId || entry.binding ≠ command.binding then
    .error "native queue entry ownership changed"
  else if some entry.revision ≠ command.expectedRevision then
    .error "native queue entry revision changed"
  else if entry.mutationOperationId.isSome || (entry.state ≠ .queued && entry.state ≠ .withdrawn) then
    .error "native queue entry is frozen or unresolved"
  else if entry.state = .withdrawn && command.action ≠ .start then
    .error "withdrawn input requires an explicit idle start"
  else if command.action = .update then
    let base := currentVersion entry
    let revision := entry.versions.length + 1
    if 128 ≤ entry.versions.length then .error "native queue retained edit bound exceeded"
    else if base.any (!·.images.isEmpty) && (command.images.getD []).isEmpty then
      .error "native queue edit must carry the entry's attachments"
    else .ok { entry with
      revision := revision
      mutationOperationId := some operationId
      versions := entry.versions ++ [newVersion command operationId revision base] }
  else .ok { entry with mutationOperationId := some operationId }

/-- `admit`. -/
def Queue.admitCommand (q : Queue) (command : Command) (operationId : Id) :
    Except String (Option Record × Queue) :=
  if !entryTargeted command then .ok (none, q)
  else if command.action = .add then
    if 2000 ≤ (q.unresolved command.conversationId).length then
      .error "native queue admission bound exceeded"
    else
      let entry := newEntry command operationId
      .ok (some entry, q.save entry)
  else do
    let entry ← q.get (truthy command.entryId)
    let admitted ← admitMutation entry command operationId
    .ok (some admitted, q.save admitted)

/-! ### Transitions -/

/-- Rewrites the first version of a revision. -/
def modifyVersion (revision : Nat) (f : Version → Version) : List Version → List Version
  | [] => []
  | version :: rest =>
    if version.revision = revision then f version :: rest
    else version :: modifyVersion revision f rest

/-- `BindingCandidate` with the fields of a binding. -/
def BindingCandidate.valid? (binding : BindingCandidate) : Option Binding := do
  let threadId ← truthy binding.threadId
  let accountId ← binding.accountId
  some ⟨threadId.val, accountId⟩

/-- `sameNativeQueueBinding`, of a candidate. -/
def BindingCandidate.same (candidate : BindingCandidate) (binding : Binding) : Bool :=
  candidate.threadId = some binding.threadId && candidate.accountId = some binding.accountId

/-- An add that native has not seen: only it may be withdrawn or follow a successor. -/
def unsubmitted (command : Command) (entry : Record) (version : Version) : Bool :=
  command.action = .add && entry.state = .admitted && version.input.isNone
    && entry.nativeSubmissionId.isNone && entry.proof.isNone

/-- `entry.dispatchedRevision ??= …; entry.dispatchedTurnId ??= …`. -/
def Record.dispatch (entry : Record) (turnId : Id) : Record :=
  { entry.moveTo .dispatching with
    dispatchedRevision := some (entry.dispatchedRevision.getD entry.revision)
    dispatchedTurnId := some (entry.dispatchedTurnId.getD turnId) }

/-- The `acknowledged` branch of an add or an update that native queued. -/
def submit (entry : Record) (nativeSubmissionId : Option String) : Except String Record :=
  match truthy nativeSubmissionId with
  | none => .error "native queue submission identity changed"
  | some id =>
    if entry.nativeSubmissionId.any (· ≠ id) then
      .error "native queue submission identity changed"
    else .ok { entry.moveTo .queued with nativeSubmissionId := some id }

/-- The `acknowledged` branch, up to the end of the mutation. -/
def answer (command : Command) (entry : Record) (nativeSubmissionId turnId : Option String)
    (deleted : Bool) : Except String Record :=
  match command.action with
  | .add =>
    match truthy turnId with
    | none => submit entry nativeSubmissionId
    | some turn =>
      if (truthy nativeSubmissionId).isNone && entry.nativeSubmissionId.isNone then
        if ((currentVersion entry).bind Version.input).isNone then
          .error "guarded native dispatch has no prepared input"
        else .ok (entry.dispatch turn)
      else submit entry nativeSubmissionId
  | .update => submit entry nativeSubmissionId
  | .delete => .ok (entry.moveTo (if deleted then .removed else .uncertain))
  | .start | .sendNow =>
    match truthy turnId with
    | none => .error "native queue dispatch has no turn identity"
    | some turn => .ok (entry.dispatch turn)
  | .reorder => .ok entry

/-- The `acknowledged` branch. -/
def acknowledge (command : Command) (entry : Record) (nativeSubmissionId turnId : Option String)
    (deleted : Bool) : Except String Record :=
  (answer command entry nativeSubmissionId turnId deleted).map fun entry =>
    { entry with
      mutationOperationId := none
      reason := none }

/-- The binding that a `prepared` transition leaves. -/
def successorBinding (command : Command) (entry : Record) (version : Version)
    (binding : Option BindingCandidate) : Except String Binding :=
  match binding with
  | none => .ok entry.binding
  | some candidate =>
    if candidate.same entry.binding then .ok entry.binding
    else if !unsubmitted command entry version then
      .error "native queue submitted input cannot change ownership"
    else match candidate.valid? with
      | none => .error "native queue successor binding is invalid"
      | some binding => .ok binding

/-- The `prepared` branch. -/
def prepare (command : Command) (entry : Record) (version : Version)
    (input : Option (List Json)) (binding : Option BindingCandidate) : Except String Record :=
  match input with
  | none => .error "native queue input is invalid"
  | some input =>
    if input.isEmpty then .error "native queue input is invalid"
    else do
      let bound ← successorBinding command entry version binding
      if version.input.any (· ≠ input) then .error "native queue prepared payload changed"
      else .ok { entry with
        binding := bound
        versions := modifyVersion entry.revision
          (fun version => { version with input := some input }) entry.versions }

section

-- `nativeQueueInputMatches`, which tells images apart by their hashes
variable (inputMatches : Version → List Json → Bool)

/-- A transition of the mutation that is under way. -/
def move (command : Command) (entry : Record) (transition : Transition) : Except String Record :=
  match transition with
  | .observedQueued id clientUserMessageId input =>
    match currentVersion entry with
    | none => .error "native queue observation conflicts with the frozen input"
    | some version =>
      if (command.action ≠ .add && command.action ≠ .update) || version.input.isNone || id = ""
          || clientUserMessageId ≠ entry.clientUserMessageId.val
          || entry.nativeSubmissionId.any (·.val ≠ id) || !inputMatches version input then
        .error "native queue observation conflicts with the frozen input"
      else acknowledge command entry (some id) none false
  | .seatWithdrawal reason =>
    match currentVersion entry with
    | none => .error "native add already crossed the dispatch boundary"
    | some version =>
      if !unsubmitted command entry version then
        .error "native add already crossed the dispatch boundary"
      else .ok { entry with
        state := .refused
        reason := some reason
        mutationOperationId := none }
  | .prepared input binding =>
    match currentVersion entry with
    | none => .error "native queue input is invalid"
    | some version => prepare command entry version input binding
  | .deferred reason => .ok { entry with reason := some reason }
  | .withdrawn =>
    if command.action ≠ .sendNow then .error "native queue withdrawal is invalid"
    else .ok (entry.moveTo .withdrawn)
  -- the fence stays: no new key can retry the mutation
  | .uncertain reason => .ok { entry.moveTo .uncertain with reason := some reason }
  | .refused reason =>
    let returned := if entry.proof.isSome then entry else
      { entry with
        state := if command.action = .add then .refused else entry.state
        -- back to the revision that this edit was a revision of
        revision := if command.action = .update then command.expectedRevision.getD 0
          else entry.revision }
    .ok { returned with
      reason := some reason
      mutationOperationId := none }
  | .acknowledged nativeSubmissionId turnId deleted =>
    acknowledge command entry nativeSubmissionId turnId deleted
  | .removed | .proven _ => .ok entry

/-- `transition`. -/
def Queue.transition (q : Queue) (command : Command) (operationId : Id)
    (transition : Transition) : Except String (Option Record × Queue) :=
  if !entryTargeted command then .ok (none, q)
  else do
    let entry ← q.get (if command.action = .add then some operationId else truthy command.entryId)
    if entry.conversationId ≠ command.conversationId || entry.binding ≠ command.binding then
      .error "native queue entry ownership changed"
    else match transition with
      | .removed =>
        if entry.state ≠ .removed || entry.proof.isSome || entry.mutationOperationId.isSome then
          .error "native queue removal is unproven"
        else .ok (some entry, q)
      | .proven candidate => do
        let proven ← prove entry candidate
        .ok (some proven, q.save proven)
      | transition =>
        if entry.mutationOperationId ≠ some operationId then
          .error "native queue mutation ownership changed"
        else do
          let moved ← move inputMatches command entry transition
          .ok (some moved, q.save moved)

end

end Delegatus.NativeQueue
