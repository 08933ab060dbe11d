import Delegatus.LinkStamps
import Delegatus.LastWriter
import Delegatus.Table
import Mathlib.Data.Fintype.Pi

/-!
# Tasks of linked boards and their wire form

A board task with the fields that the exchange between two installs reads or writes.
Everything else a task stores (assignments, holds, deadlines, …) never crosses and is the
parameter `ρ`.

The merged fields form groups (`TaskSyncGroup`), each with its own stamp.  `groupDigest`
is a group's local content, by which a local edit is noticed; `wireGroup` is a group's
value in wire form.  The source compares both as JSON text and the model as the values
themselves.
-/

namespace Delegatus.LinkedBoards

open LinkStamps

inductive TaskSyncGroup where
  | text
  | status
  | look
  | place
  | links
  | machine
  | handover
  deriving DecidableEq

/-- `TASK_SYNC_GROUPS`, in the order the code walks them. -/
def TASK_SYNC_GROUPS : List TaskSyncGroup :=
  [.text, .status, .look, .place, .links, .machine, .handover]

theorem mem_TASK_SYNC_GROUPS (group : TaskSyncGroup) : group ∈ TASK_SYNC_GROUPS := by
  cases group <;> decide

theorem nodup_TASK_SYNC_GROUPS : TASK_SYNC_GROUPS.Nodup := by decide

instance : Fintype TaskSyncGroup where
  elems := ⟨TASK_SYNC_GROUPS, nodup_TASK_SYNC_GROUPS⟩
  complete := mem_TASK_SYNC_GROUPS

/-- The groups that both installs agree on. -/
def sharedGroups : List TaskSyncGroup := [.text, .status, .look, .place, .links]

theorem ne_of_mem_sharedGroups {group : TaskSyncGroup} (h : group ∈ sharedGroups) :
    group ≠ .machine ∧ group ≠ .handover := by
  constructor
  · rintro rfl
    simp [sharedGroups] at h
  · rintro rfl
    simp [sharedGroups] at h

inductive TaskStatus where
  | inbox
  | assigned
  | blocked
  | done
  deriving DecidableEq

inductive TaskPriority where
  | high
  | normal
  | low
  deriving DecidableEq

inductive TaskPlacement where
  | pinned
  | unplaced
  | auto
  deriving DecidableEq

inductive TaskBoardVisibility where
  | shown
  | hidden
  deriving DecidableEq

/-- A position; the coordinates' decimal texts. -/
structure TaskPos where
  x : String
  y : String
  deriving DecidableEq

structure StoredWorkLink where
  repository : String
  number : Nat
  kind : Option String
  addedAt : String
  addedBy : String
  deriving DecidableEq

/-- A review round as it crosses; `body` is the rest of its public metadata. -/
structure PrototypeRoundView where
  id : String
  hasQuestions : Bool
  skipsQuestions : Bool
  body : String
  deriving DecidableEq

/-- The public review metadata of a task; `body` is the rest of the summary. -/
structure PrototypeReviewReplica where
  waitingReviewId : Option String
  asksQuestions : Bool
  body : String
  rounds : List PrototypeRoundView
  historyTruncated : Bool
  deriving DecidableEq

/-- `sync`: one stamp per group, where it was ever stamped, and the prefix of the install
whose copy equals this row. -/
structure TaskSync where
  s : TaskSyncGroup → Option Stamp
  o : String
  deriving DecidableEq

/-- A stored task.  `ownReview` is the replica that `prototypeReviewReplica` builds of the
task's own review rounds, when it has any; `chosen` is `task.chosen === true`. -/
structure BoardTask (ρ : Type) where
  id : String
  project : String
  status : TaskStatus
  text : String
  details : Option String
  chosen : Bool
  color : Option String
  icon : Option String
  priority : Option TaskPriority
  placement : TaskPlacement
  pos : Option TaskPos
  workLinks : Option (List StoredWorkLink)
  machine : Option String
  handover : Option String
  ownReview : Option PrototypeReviewReplica
  prototypeReviewReplica : Option PrototypeReviewReplica
  board : Option TaskBoardVisibility
  boardAutoHidden : Bool
  boardChoice : Bool
  findingKey : Option String
  proactive : Bool
  createdAt : Instant
  updatedAt : Instant
  sync : Option TaskSync
  rest : ρ
  deriving DecidableEq

/-- This install's identity. -/
structure Self where
  id : String
  pfx : String

/-! ### Rows on the wire -/

structure WireTask where
  id : String
  project : String
  text : String
  details : Option String
  status : TaskStatus
  board : Option TaskBoardVisibility
  color : Option String
  icon : Option String
  priority : Option TaskPriority
  placement : TaskPlacement
  pos : Option TaskPos
  workLinks : Option (List StoredWorkLink)
  machine : String
  handover : Option String
  createdAt : Instant
  updatedAt : Instant
  s : TaskSyncGroup → Stamp
  prototypeReviewReplica : Option PrototypeReviewReplica
  deriving DecidableEq

structure WireGone where
  id : String
  project : String
  gone : Stamp
  deriving DecidableEq

structure WireStub where
  id : String
  project : String
  withheld : Stamp
  deriving DecidableEq

inductive WireRow where
  | task (row : WireTask)
  | gone (row : WireGone)
  | stub (row : WireStub)
  deriving DecidableEq

def WireRow.id : WireRow → String
  | .task row => row.id
  | .gone row => row.id
  | .stub row => row.id

def WireRow.project : WireRow → String
  | .task row => row.project
  | .gone row => row.project
  | .stub row => row.project

section Task

variable {ρ : Type}

/-! ### Groups -/

/-- A group's content, as a value. -/
inductive GroupContent where
  | text (text : String) (details : Option String) (chosen : Bool)
      (replica : Option PrototypeReviewReplica)
  | status (status : TaskStatus)
  | look (color icon : Option String) (priority : Option TaskPriority)
  | place (placement : TaskPlacement) (pos : Option TaskPos)
  | links (workLinks : Option (List StoredWorkLink))
  | machine (machine : Option String)
  | handover (handover : Option String)
  deriving DecidableEq

/-- The replica a task shows: of its own rounds first. -/
def prototypeReviewReplica (task : BoardTask ρ) : Option PrototypeReviewReplica :=
  match task.ownReview with
  | some replica => some replica
  | none => task.prototypeReviewReplica

/-- Local digest of a group. -/
def groupDigest (task : BoardTask ρ) : TaskSyncGroup → GroupContent
  | .text => .text task.text task.details task.chosen (prototypeReviewReplica task)
  | .status => .status task.status
  | .look => .look task.color task.icon task.priority
  | .place => .place task.placement task.pos
  | .links => .links task.workLinks
  | .machine => .machine task.machine
  | .handover => .handover task.handover

/-- The stamp a group reads as, stamped or derived from the row's time. -/
def effectiveStamp (task : BoardTask ρ) (group : TaskSyncGroup) (pfx : String) : Stamp :=
  match task.sync.bind (fun sync => sync.s group) with
  | some stamp => stamp
  | none => derivedStamp task.updatedAt pfx

/-- The largest effective stamp of a task. -/
def newestStamp (task : BoardTask ρ) (pfx : String) : Stamp :=
  TASK_SYNC_GROUPS.foldl
    (fun newest group =>
      if effectiveStamp task group pfx > newest then effectiveStamp task group pfx else newest)
    (effectiveStamp task .text pfx)

/-! ### Encoding -/

/-- What the sender does not compute here: the UTF-8 length of a row's JSON, and the
bounds on a row's fields. -/
structure WireChecks where
  rowBytes : WireTask → Nat
  validateWireTask : WireTask → Bool

/-- The sender refuses to encode a row above this. -/
def MAX_WIRE_ROW_BYTES : Nat := 170000

def TASK_BOARD_WIRE_VERSION : Nat := 3

def TASK_PROTOTYPE_WIRE_VERSION : Nat := 5

def TASK_QUESTIONS_WIRE_VERSION : Nat := 6

def TASK_QUESTION_SKIP_WIRE_VERSION : Nat := 7

def TASK_WIRE_VERSION : Nat := TASK_QUESTION_SKIP_WIRE_VERSION

structure EncodeOptions where
  includeBoard : Bool
  includePrototypeReview : Bool
  peerTaskWireVersion : Nat

/-- A string field that is written only when it is not empty. -/
def nonEmpty (field : Option String) : Option String := field.filter (fun text => text ≠ "")

/-- The replica that crosses to the peer of the options. -/
def wireReplica (task : BoardTask ρ) (options : EncodeOptions) :
    Option PrototypeReviewReplica :=
  let candidate := if options.includePrototypeReview then prototypeReviewReplica task else none
  candidate.filter fun replica =>
    let hasQuestions := replica.asksQuestions || replica.rounds.any PrototypeRoundView.hasQuestions
    let skipsQuestions := replica.rounds.any PrototypeRoundView.skipsQuestions
    !(decide (options.peerTaskWireVersion < TASK_QUESTIONS_WIRE_VERSION) && hasQuestions ||
      decide (options.peerTaskWireVersion < TASK_QUESTION_SKIP_WIRE_VERSION) && skipsQuestions)

/-- The row before its size is looked at. -/
def fullRow (task : BoardTask ρ) (self : Self) (options : EncodeOptions) : WireTask where
  id := task.id
  project := task.project
  text := task.text
  details := task.details
  status := task.status
  board := if options.includeBoard then task.board else none
  color := nonEmpty task.color
  icon := nonEmpty task.icon
  priority := task.priority.filter (fun priority => priority = .high ∨ priority = .low)
  placement := task.placement
  pos := task.pos
  workLinks := task.workLinks.filter (fun links => links ≠ [])
  machine := task.machine.getD self.id
  handover := task.handover
  createdAt := task.createdAt
  updatedAt := task.updatedAt
  s := fun group => effectiveStamp task group self.pfx
  prototypeReviewReplica := wireReplica task options

/-- The rounds without the first that is not waiting, or without the first. -/
def dropRound (replica : PrototypeReviewReplica) : PrototypeReviewReplica :=
  let index := replica.rounds.findIdx? (fun round => some round.id ≠ replica.waitingReviewId)
  { replica with rounds := replica.rounds.eraseIdx (index.getD 0) }

/-- `while (rounds.length && bytes > MAX_WIRE_ROW_BYTES)`, with the row's last measure
`bytes`; `fuel` is the number of rounds. -/
def dropRounds (checks : WireChecks) (row : WireTask) :
    Nat → PrototypeReviewReplica → Nat → PrototypeReviewReplica × Nat
  | 0, replica, bytes => (replica, bytes)
  | fuel + 1, replica, bytes =>
    if replica.rounds ≠ [] ∧ bytes > MAX_WIRE_ROW_BYTES then
      let rest := dropRound replica
      dropRounds checks row fuel rest
        (checks.rowBytes { row with prototypeReviewReplica := some rest })
    else (replica, bytes)

/-- The row and its measure: review history is dropped to fit the bound. -/
def measuredRow (checks : WireChecks) (row : WireTask) : WireTask × Nat :=
  let bytes := checks.rowBytes row
  match row.prototypeReviewReplica with
  | some replica =>
    if bytes > MAX_WIRE_ROW_BYTES then
      -- the measure that the loop starts from was taken before the flag was set
      let (kept, bytes) := dropRounds checks row replica.rounds.length
        { replica with historyTruncated := true } bytes
      ({ row with prototypeReviewReplica := some kept }, bytes)
    else (row, bytes)
  | none => (row, bytes)

/-- The row as it leaves this machine, or a withheld stub when a stored field breaks a
bound. -/
def encodeTask (checks : WireChecks) (task : BoardTask ρ) (self : Self)
    (options : EncodeOptions) : WireRow :=
  let (row, bytes) := measuredRow checks (fullRow task self options)
  if bytes ≤ MAX_WIRE_ROW_BYTES ∧ checks.validateWireTask row then .task row
  else .stub ⟨task.id, task.project, newestStamp task self.pfx⟩

/-- A group's value in wire form. -/
def wireGroup (row : WireTask) : TaskSyncGroup → GroupContent
  | .text => .text row.text row.details true row.prototypeReviewReplica
  | .status => .status row.status
  | .look => .look row.color row.icon row.priority
  | .place => .place row.placement row.pos
  | .links => .links row.workLinks
  | .machine => .machine (some row.machine)
  | .handover => .handover row.handover

end Task

end Delegatus.LinkedBoards
