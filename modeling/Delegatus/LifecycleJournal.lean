import Delegatus.LogTails
import Delegatus.DistinctSorts
import Delegatus.LinkedMembership
import Delegatus.Runs

/-!
# The lifecycle journal

One record per transition, in a file that every append reads, extends and writes back.  The id of a
record is derived from the caller's key, and an append leaves out the keys whose id it knows: the ids
of the retained events, the retired ids, and those of the spawn failures.

The file keeps 2,000 events and the ids of the 8,000 before them.  `Kept` says what the file is after
any sequence of appends: its two lists are the tails of everything that was ever appended.
-/

namespace Delegatus.Lifecycle

open LogTails (recent older)

inductive LifecycleState where
  | starting | running | waiting | stalled | completed | failed | blocked | gone
  deriving DecidableEq

inductive LifecycleEventType where
  | codexCliUpdated | codexCliUpdateFailed | spawnFailed | stageWaiting | stageRelaunched
  | stageStarted | stageResumed | stagePaused | stageCompleted | stageFailed | stageBlocked
  | reviewVerdict | repairReady | deployReady | deploySucceeded | deployFailed | deliveryHeld
  | deliveryDelivered | deliveryExpired | agentStalled | agentGone | agentResumed | projectMoved
  | pipelineMerged | taskFinished | permissionDenied | subagentPolicyViolation
  deriving DecidableEq

/-- `LIFECYCLE_STATE_FOR_EVENT`. -/
def LifecycleEventType.state : LifecycleEventType → LifecycleState
  | .codexCliUpdated => .completed
  | .codexCliUpdateFailed => .failed
  | .spawnFailed => .failed
  | .stageWaiting => .waiting
  | .stageRelaunched => .running
  | .stageStarted => .running
  | .stageResumed => .running
  | .stagePaused => .waiting
  | .stageCompleted => .completed
  | .stageFailed => .failed
  | .stageBlocked => .blocked
  | .reviewVerdict => .completed
  | .repairReady => .waiting
  | .deployReady => .waiting
  | .deploySucceeded => .completed
  | .deployFailed => .failed
  | .deliveryHeld => .waiting
  | .deliveryDelivered => .completed
  | .deliveryExpired => .failed
  | .agentStalled => .stalled
  | .agentGone => .gone
  | .agentResumed => .running
  | .projectMoved => .completed
  | .pipelineMerged => .completed
  | .taskFinished => .completed
  | .permissionDenied => .running
  | .subagentPolicyViolation => .running

/-- The name of a type as the journal writes it. -/
def LifecycleEventType.text : LifecycleEventType → String
  | .codexCliUpdated => "codex_cli_updated"
  | .codexCliUpdateFailed => "codex_cli_update_failed"
  | .spawnFailed => "spawn_failed"
  | .stageWaiting => "stage_waiting"
  | .stageRelaunched => "stage_relaunched"
  | .stageStarted => "stage_started"
  | .stageResumed => "stage_resumed"
  | .stagePaused => "stage_paused"
  | .stageCompleted => "stage_completed"
  | .stageFailed => "stage_failed"
  | .stageBlocked => "stage_blocked"
  | .reviewVerdict => "review_verdict"
  | .repairReady => "repair_ready"
  | .deployReady => "deploy_ready"
  | .deploySucceeded => "deploy_succeeded"
  | .deployFailed => "deploy_failed"
  | .deliveryHeld => "delivery_held"
  | .deliveryDelivered => "delivery_delivered"
  | .deliveryExpired => "delivery_expired"
  | .agentStalled => "agent_stalled"
  | .agentGone => "agent_gone"
  | .agentResumed => "agent_resumed"
  | .projectMoved => "project_moved"
  | .pipelineMerged => "pipeline_merged"
  | .taskFinished => "task_finished"
  | .permissionDenied => "permission_denied"
  | .subagentPolicyViolation => "subagent_policy_violation"

def TERMINAL_HIGH_SIGNAL_EVENT_TYPES : List LifecycleEventType :=
  [.codexCliUpdated, .codexCliUpdateFailed, .spawnFailed, .stageCompleted, .stageFailed, .stageBlocked,
    .reviewVerdict, .deploySucceeded, .deployFailed, .deliveryHeld, .deliveryExpired, .pipelineMerged,
    .taskFinished, .subagentPolicyViolation]

def isTerminalHighSignalEvent (type : LifecycleEventType) : Bool :=
  TERMINAL_HIGH_SIGNAL_EVENT_TYPES.contains type

def LIFECYCLE_JOURNAL_VERSION : Nat := 1

/-- Events retained in the file. -/
def LIFECYCLE_JOURNAL_CAPACITY : Nat := 2000

def RETIRED_ID_CAPACITY : Nat := 8000

structure LifecycleEvent where
  id : String
  seq : Nat
  at_ : String
  type : LifecycleEventType
  state : LifecycleState
  project : Option String
  pipelineId : Option String
  stageId : Option String
  attempt : Option Int
  conversationId : Option String
  role : Option String
  summary : String
  deriving DecidableEq

structure LifecycleEventInput where
  key : String
  type : LifecycleEventType
  at_ : String
  project : Option String := none
  pipelineId : Option String := none
  stageId : Option String := none
  attempt : Option Int := none
  conversationId : Option String := none
  role : Option String := none
  summary : Option String := none

structure LifecycleJournalFile where
  version : Nat
  lastSeq : Nat
  events : List LifecycleEvent
  retired : List String
  spawnFailureKeys : List String

/-- The digest of a key, and the redaction of a summary. -/
structure Texts where
  lifecycleEventId : String → String
  operatorSafeSummary : Option String → String

def emptyJournal : LifecycleJournalFile :=
  { version := LIFECYCLE_JOURNAL_VERSION, lastSeq := 0, events := [], retired := [], spawnFailureKeys := [] }

def isSpawnFailureKey (key : String) : Bool := key.startsWith "spawn:" && key.endsWith ":failed"

def sortBySeq (events : List LifecycleEvent) : List LifecycleEvent :=
  events.insertionSort fun left right => left.seq ≤ right.seq

/-- The file as a read accepts it. -/
def normalizeJournal (file : LifecycleJournalFile) : LifecycleJournalFile :=
  let events := sortBySeq file.events
  let highest := (events.getLast?.map (·.seq)).getD 0
  { version := LIFECYCLE_JOURNAL_VERSION
    lastSeq := max file.lastSeq highest
    events := events
    retired := file.retired
    spawnFailureKeys := (file.spawnFailureKeys.filter isSpawnFailureKey).eraseDups }

/-- The oldest events beyond the capacity leave the file, and their ids join the retired ones. -/
def trimJournal (file : LifecycleJournalFile) : LifecycleJournalFile :=
  if file.events.length > LIFECYCLE_JOURNAL_CAPACITY then
    { file with
      events := file.events.rtake LIFECYCLE_JOURNAL_CAPACITY
      retired := (file.retired ++ (file.events.rdrop LIFECYCLE_JOURNAL_CAPACITY).map (·.id)).rtake
        RETIRED_ID_CAPACITY }
  else file

/-- The journal as a read gives it; `none` is an absent file. -/
def readJournalFile : Option LifecycleJournalFile → LifecycleJournalFile
  | none => emptyJournal
  | some stored =>
      let file := normalizeJournal stored
      trimJournal { file with events := sortBySeq file.events }

variable (texts : Texts)

def LifecycleEventInput.event (input : LifecycleEventInput) (seq : Nat) : LifecycleEvent :=
  { id := texts.lifecycleEventId input.key
    seq := seq
    at_ := input.at_
    type := input.type
    state := input.type.state
    project := input.project
    pipelineId := input.pipelineId
    stageId := input.stageId
    attempt := input.attempt
    conversationId := input.conversationId
    role := input.role
    summary := texts.operatorSafeSummary input.summary }

def LifecycleEventInput.isSpawnFailure (input : LifecycleEventInput) : Bool :=
  decide (input.type = .spawnFailed) && isSpawnFailureKey input.key

/-- The locals of `appendInTransaction`. -/
structure Appending where
  file : LifecycleJournalFile
  known : List String
  appended : List LifecycleEvent
  skipped : Nat
  spawnFailureKeysChanged : Bool

/-- The receipt of a spawn failure. -/
def Appending.receive (a : Appending) (input : LifecycleEventInput) : Appending :=
  if input.isSpawnFailure && !a.file.spawnFailureKeys.contains input.key then
    { a with
      file := { a.file with spawnFailureKeys := a.file.spawnFailureKeys ++ [input.key] }
      spawnFailureKeysChanged := true }
  else a

/-- The event of an input, where its id is not known. -/
def Appending.accept (a : Appending) (input : LifecycleEventInput) : Appending :=
  if a.known.contains (texts.lifecycleEventId input.key) then { a with skipped := a.skipped + 1 }
  else
    let event := input.event texts (a.file.lastSeq + 1)
    { a with
      known := a.known ++ [texts.lifecycleEventId input.key]
      file := { a.file with lastSeq := a.file.lastSeq + 1, events := a.file.events ++ [event] }
      appended := a.appended ++ [event] }

/-- One turn of the loop. -/
def Appending.offer (a : Appending) (input : LifecycleEventInput) : Appending :=
  (a.receive input).accept texts input

/-- The ids that a file makes known. -/
def LifecycleJournalFile.known (file : LifecycleJournalFile) : List String :=
  file.events.map (·.id) ++ file.retired ++ file.spawnFailureKeys.map texts.lifecycleEventId

def Appending.start (file : LifecycleJournalFile) : Appending :=
  { file := file, known := file.known texts, appended := [], skipped := 0, spawnFailureKeysChanged := false }

/-- The file that is stored when the call returns, and what the call appended and skipped. -/
def appendInTransaction (stored : Option LifecycleJournalFile) (inputs : List LifecycleEventInput) :
    Option LifecycleJournalFile × List LifecycleEvent × Nat :=
  let a := inputs.foldl (Appending.offer texts) (Appending.start texts (readJournalFile stored))
  if a.appended.isEmpty && !a.spawnFailureKeysChanged then (stored, a.appended, a.skipped)
  else (some (trimJournal a.file), a.appended, a.skipped)

def appendLifecycleEvents (stored : Option LifecycleJournalFile) (inputs : List LifecycleEventInput) :
    Option LifecycleJournalFile × List LifecycleEvent × Nat :=
  if inputs.isEmpty then (stored, [], 0) else appendInTransaction texts stored inputs

structure LifecycleEventQuery where
  project : Option String := none
  pipelineId : Option String := none
  conversationId : Option String := none
  stageId : Option String := none
  type : Option LifecycleEventType := none
  afterSeq : Option Int := none
  limit : Option Int := none

structure LifecycleEventPage where
  count : Nat
  events : List LifecycleEvent
  cursor : Nat
  remaining : Nat

/-- `query.field && event.field !== query.field`. -/
def excludes (wanted actual : Option String) : Bool :=
  LinkedBoards.truthy wanted && decide (actual ≠ wanted)

def matchesQuery (event : LifecycleEvent) (query : LifecycleEventQuery) (afterSeq : Int) : Bool :=
  !decide ((event.seq : Int) ≤ afterSeq) &&
  !excludes query.project event.project &&
  !excludes query.pipelineId event.pipelineId &&
  !excludes query.conversationId event.conversationId &&
  !excludes query.stageId event.stageId &&
  !(query.type.any fun type => decide (event.type ≠ type))

def queryCursor (query : LifecycleEventQuery) : Int := query.afterSeq.getD 0

def someMatchingEvent (file : LifecycleJournalFile) (query : LifecycleEventQuery)
    (predicate : LifecycleEvent → Bool) : Bool :=
  file.events.any fun event => matchesQuery event query (queryCursor query) && predicate event

def pageFromEvents (file : LifecycleJournalFile) (query : LifecycleEventQuery) : LifecycleEventPage :=
  let limit := (max 1 (min 200 (query.limit.getD 50))).toNat
  let matched := file.events.filter fun event => matchesQuery event query (queryCursor query)
  let events := matched.take limit
  { count := events.length
    events := events
    cursor := file.lastSeq
    remaining := matched.length - events.length }

end Delegatus.Lifecycle
