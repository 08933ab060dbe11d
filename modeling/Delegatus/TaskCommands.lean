import Delegatus.LinkedMembership
import Delegatus.MembershipRemoval
import Delegatus.Entries
import Mathlib.Data.List.Sort

/-!
# Task commands

The commands on a task list: `createTask`, `patchTask`, `deleteTask`, `dismissUnstartedLaunch` and
`applyAssignmentPatches`.  Each gets the list and answers the list that is stored, or a refusal.  `Board` is
what is stored: the tasks with their companion rows and the receipts of recent creates; a step is one
command or one page of a peer's rows.

The readers of the presentation fields are parameters (`FieldReaders`): each refuses a value or gives what
is stored of it.
-/

namespace Delegatus.TaskCommands

open LinkedBoards
open LinkStamps (Instant)
open TaskMembership (AssignmentRef assignmentMatchesRef)

/-! ### Inputs -/

/-- A field of a request body. -/
inductive Value where
  | undefined
  | null
  | text (text : String)
  | int (value : Int)
  /-- Any other value, as its JSON text. -/
  | other (json : String)
  deriving DecidableEq

/-- A request body: its own fields. -/
abbrev Input := Entries String Value

/-- `Object.hasOwn(input, key)`. -/
def hasOwn (input : Input) (key : String) : Bool := (input.at? key).isSome

/-- `input[key]`. -/
def get (input : Input) (key : String) : Value := (input.at? key).getD .undefined

structure TaskRefusal where
  error : String
  status : Nat
  code : Option String
  field : Option String

/-- What a command answers or throws. -/
inductive TaskFailure where
  | refused (refusal : TaskRefusal)
  | thrown (error : String)

def refuse {α : Type} (status : Nat) (error : String) : Except TaskRefusal α :=
  .error ⟨error, status, none, none⟩

def invalidField {α : Type} (field error : String) : Except TaskRefusal α :=
  .error ⟨error, 400, some "TASK_INVALID_FIELD", some field⟩

/-! ### Stored tasks -/

inductive Actor where
  | operator
  | agent (role conversationId deputy : Option String)
  deriving DecidableEq

structure TaskProgress where
  value : Int
  setAt : Instant
  setBy : Actor
  deriving DecidableEq

structure Finding where
  count : Nat
  lastSeenAt : Instant
  previousTaskId : Option String
  deriving DecidableEq

structure TaskNote where
  text : String
  author : String
  updatedAt : Instant
  deriving DecidableEq

structure StatusBy where
  actor : Actor
  was : Option TaskStatus
  stamp : Instant
  deriving DecidableEq

structure GroupHidden where
  stamp : Instant
  operator : Bool
  admitted : List String
  deriving DecidableEq

/-- What a task stores that only this install reads.  The fields that no command looks into are kept as
their JSON texts. -/
structure TaskPart extends LocalPart where
  finding : Option Finding
  hold : Option String
  note : Option TaskNote
  summary : Option String
  progress : Option TaskProgress
  steps : Option String
  due : Option String
  statusBy : Option StatusBy
  groupHidden : Option GroupHidden
  attachments : Option String
  source : Option String
  deriving DecidableEq

instance : Inhabited TaskPart :=
  ⟨⟨default, none, none, none, none, none, none, none, none, none, none, none⟩⟩

abbrev StoredTask := BoardTask TaskPart

/-- The task as the membership rules read it. -/
def localTask (task : StoredTask) : LocalTask :=
  { id := task.id, project := task.project, status := task.status, text := task.text
    details := task.details, chosen := task.chosen, color := task.color, icon := task.icon
    priority := task.priority, placement := task.placement, pos := task.pos
    workLinks := task.workLinks, machine := task.machine, handover := task.handover
    ownReview := task.ownReview, prototypeReviewReplica := task.prototypeReviewReplica
    board := task.board, boardAutoHidden := task.boardAutoHidden, boardChoice := task.boardChoice
    findingKey := task.findingKey, proactive := task.proactive
    createdAt := task.createdAt, updatedAt := task.updatedAt, sync := task.sync
    rest := task.rest.toLocalPart }

/-- `withTaskCompletion`, which throws where an undelivered decision is left. -/
def completed (task previous : StoredTask) : Except TaskFailure StoredTask :=
  match withTaskCompletion (localTask task) (localTask previous) with
  | .ok part => .ok { task with rest := { task.rest with toLocalPart := part } }
  | .error error => .error (.thrown error)

/-! ### What a command takes from outside -/

inductive SeatHolding where
  | holds
  | free
  | unknown

/-- The readers of other fields, at the call's time and for its writer.  `hold` takes the held reason,
`steps` the held steps; `due` and `workLinks` answer what is to be stored where the request names it. -/
structure FieldReaders where
  summary : Value → Except TaskRefusal (Option String)
  hold : Value → Option String → Option String
  storedHold : Value → Option String
  steps : Value → Option String → Except TaskRefusal (Option String)
  icon : Value → Option String
  color : Value → Option String
  pos : Value → Option TaskPos
  posError : Value → TaskRefusal
  lineEdits : Input → Option String → Except TaskRefusal (Option String)
  attachments : Value → Except TaskRefusal (Option String)
  source : Value → Except TaskRefusal (Option String)
  createDue : Input → Except TaskRefusal (Option String)
  patchDue : StoredTask → Input → Except TaskRefusal (Option (Option String))
  workLinks : StoredTask → Input → Except TaskRefusal (Option (Option (List StoredWorkLink)))
  taskRevision : StoredTask → String
  matchesShortId : String → String → Bool

/-- `TaskCommandDeps` and `PatchTaskOptions`, with one clock reading and one random id. -/
structure CommandDeps where
  now : Instant
  id : String
  actor : Option Actor
  statusActor : Option Actor
  noteAuthor : String
  requireDue : Bool
  requirePlacementGuards : Bool
  explicit : Bool
  allowBoardOverflow : Bool
  canonicalProject : String → String
  showsOnBoard : StoredTask → Bool
  seatHolding : StoredTask → SeatHolding
  localeCompare : String → String → Int
  readers : FieldReaders

/-- `taskProgressActor`, under the trusted attribution. -/
def progressActor (deps : CommandDeps) : Actor := (deps.statusActor.orElse fun _ => deps.actor).getD .operator

/-- `actor === "operator"`. -/
def byOperator (deps : CommandDeps) : Bool := deps.actor = some .operator

/-! ### Fields -/

def TASK_TEXT_LIMIT : Nat := 6000
def TASK_DETAILS_LIMIT : Nat := 20000
def TASK_NOTE_LIMIT : Nat := 280
def FINDING_KEY_LIMIT : Nat := 200
def RECENT_CREATES_CAP : Nat := 100

/-- `text.length`. -/
def unitLength (text : String) : Nat := (JsStrings.codeUnits text).length

/-- A string that is not blank, trimmed. -/
def normalizeText : Value → Option String
  | .text text => if JsStrings.trim text = "" then none else some (JsStrings.trim text)
  | _ => none

def normalizeProject : Value → Option String := normalizeText

def checkedText (value : Value) : Except TaskRefusal String :=
  match normalizeText value with
  | none => refuse 400 "task text is required"
  | some text =>
      if unitLength text > TASK_TEXT_LIMIT then
        refuse 400 "Task text must be no longer than 6000 characters"
      else .ok text

def normalizeDetails : Value → Except TaskRefusal (Option String)
  | .undefined => .ok none
  | .null => .ok none
  | .text text =>
      let details := JsStrings.trim text
      if details = "" then .ok none
      else if unitLength details > TASK_DETAILS_LIMIT then
        invalidField "details" "Task details must be no longer than 20000 characters"
      else .ok (some details)
  | _ => invalidField "details" "details must be a string"

/-- Retains whitespace and case, and counts Unicode characters. -/
def readFindingKey : Value → Except TaskRefusal (Option String)
  | .undefined => .ok none
  | .null => .ok none
  | .text key =>
      if unitLength key > FINDING_KEY_LIMIT * 2 || key.length > FINDING_KEY_LIMIT then
        invalidField "findingKey" "findingKey must be a string of at most 200 characters"
      else .ok (some key)
  | _ => invalidField "findingKey" "findingKey must be a string of at most 200 characters"

def readTaskProgress (value : Value) (setAt : Instant) (setBy : Actor) :
    Except TaskRefusal (Option TaskProgress) :=
  match value with
  | .null => .ok none
  | .int value =>
      if 0 ≤ value ∧ value ≤ 100 then .ok (some ⟨value, setAt, setBy⟩)
      else invalidField "progress" "progress must be an integer from 0 to 100 or null"
  | _ => invalidField "progress" "progress must be an integer from 0 to 100 or null"

def normalizeStatus : Value → Option TaskStatus
  | .text "inbox" => some .inbox
  | .text "assigned" => some .assigned
  | .text "blocked" => some .blocked
  | .text "done" => some .done
  | _ => none

def normalizeBoardVisibility : Value → Option TaskBoardVisibility
  | .text "shown" => some .shown
  | .text "hidden" => some .hidden
  | _ => none

/-- `auto` is reserved for the server. -/
def normalizePlacement : Value → Option TaskPlacement
  | .text "pinned" => some .pinned
  | .text "unplaced" => some .unplaced
  | _ => none

/-- `readTaskPriorityInput`: `none` is a value that names no priority. -/
def readTaskPriority : Value → Option (Option TaskPriority)
  | .undefined => some none
  | .null => some none
  | .text text =>
      let key := (JsStrings.trim text).toLower
      if key = "" ∨ key = "normal" then some none
      else if key = "high" then some (some .high)
      else if key = "low" then some (some .low)
      else none
  | _ => none

/-- `note.replace(/\s+/g, " ").trim()`. -/
def collapseSpaces (text : String) : String :=
  " ".intercalate (((text.toList.splitBy fun a b => JsStrings.isSpace a == JsStrings.isSpace b).filter
    fun run => !run.any JsStrings.isSpace).map String.ofList)

def readNote (deps : CommandDeps) : Value → Except TaskRefusal (Option TaskNote)
  | .null => .ok none
  | .text text =>
      let note := collapseSpaces text
      if unitLength note > TASK_NOTE_LIMIT then
        invalidField "note" "note must be at most 280 characters"
      else if note = "" then .ok none
      else .ok (some ⟨note, deps.noteAuthor, deps.now⟩)
  | _ => invalidField "note" "note must be a string or null"

/-! ### The board's bound -/

def countBoardTasks (deps : CommandDeps) (tasks : List StoredTask) (project : String) : Nat :=
  tasks.countP fun task => task.project = project && deps.showsOnBoard task

def boardFullError {α : Type} (field : String) : Except TaskRefusal α :=
  .error ⟨"The board already shows 300 task bands for this project. Hide a band you no longer need, or keep this task off the board with board: \"hidden\".",
    409, some "TASK_BOARD_FULL", some field⟩

/-! ### Patches -/

/-- The task with the patch so far; `status` is `patch.status`. -/
structure TaskFields where
  status : Option TaskStatus
  findingKey : Option String
  text : String
  details : Option String
  chosen : Bool
  color : Option String
  icon : Option String
  priority : Option TaskPriority
  placement : TaskPlacement
  pos : Option TaskPos
  workLinks : Option (List StoredWorkLink)
  board : Option TaskBoardVisibility
  origin : Option TaskOrigin
  finding : Option Finding
  hold : Option String
  note : Option TaskNote
  summary : Option String
  progress : Option TaskProgress
  steps : Option String
  due : Option String
  groupHidden : Option GroupHidden

def fieldsOf (task : StoredTask) : TaskFields where
  status := none
  findingKey := task.findingKey
  text := task.text
  details := task.details
  chosen := task.chosen
  color := task.color
  icon := task.icon
  priority := task.priority
  placement := task.placement
  pos := task.pos
  workLinks := task.workLinks
  board := task.board
  origin := task.rest.origin
  finding := task.rest.finding
  hold := task.rest.hold
  note := task.rest.note
  summary := task.rest.summary
  progress := task.rest.progress
  steps := task.rest.steps
  due := task.rest.due
  groupHidden := task.rest.groupHidden

/-- `{ ...task, ...patch }`. -/
def TaskFields.onto (fields : TaskFields) (task : StoredTask) : StoredTask :=
  { task with
    status := fields.status.getD task.status
    findingKey := fields.findingKey
    text := fields.text
    details := fields.details
    chosen := fields.chosen
    color := fields.color
    icon := fields.icon
    priority := fields.priority
    placement := fields.placement
    pos := fields.pos
    workLinks := fields.workLinks
    board := fields.board
    rest := { task.rest with
      origin := fields.origin
      finding := fields.finding
      hold := fields.hold
      note := fields.note
      summary := fields.summary
      progress := fields.progress
      steps := fields.steps
      due := fields.due
      groupHidden := fields.groupHidden } }

/-- The arguments of `patchTask`, with the task that it found. -/
structure PatchCall where
  existing : List StoredTask
  task : StoredTask
  input : Input
  deps : CommandDeps

/-- One block of `patchTask`. -/
abbrev Edit := PatchCall → TaskFields → Except TaskRefusal TaskFields

/-- `if (Object.hasOwn(input, key))`. -/
def whenOwn (key : String) (edit : PatchCall → Value → TaskFields → Except TaskRefusal TaskFields) : Edit :=
  fun call fields =>
    match call.input.at? key with
    | none => .ok fields
    | some value => edit call value fields

def editSummary : Edit := whenOwn "summary" fun call value fields =>
  (call.deps.readers.summary value).map fun summary => { fields with summary := summary }

def editProgress : Edit := whenOwn "progress" fun call value fields =>
  (readTaskProgress value call.deps.now (progressActor call.deps)).map fun progress =>
    { fields with progress := progress }

def editFindingKey : Edit := whenOwn "findingKey" fun call value fields =>
  (readFindingKey value).map fun key =>
    { fields with
      findingKey := key
      -- another key starts another count
      finding := if key ≠ call.task.findingKey then key.map fun _ => ⟨1, call.deps.now, none⟩
        else fields.finding }

def editNote : Edit := whenOwn "note" fun call value fields =>
  (readNote call.deps value).map fun note => { fields with note := note }

def editText : Edit := whenOwn "text" fun call value fields =>
  (checkedText value).map fun text =>
    { fields with
      text := text
      chosen := call.deps.explicit
      -- a placeholder that the operator names is never refined again
      origin := fields.origin.map fun origin =>
        if origin.refinement = .pending ∧ text ≠ call.task.text then { origin with refinement := .titled }
        else origin }

def editDetails : Edit := whenOwn "details" fun _ value fields =>
  (normalizeDetails value).map fun details => { fields with details := details }

/-- `replaceLine`, `removeLine` and `appendLine`, against the stored details. -/
def editLines : Edit := fun call fields =>
  if ["replaceLine", "removeLine", "appendLine"].all fun key => get call.input key = .undefined then .ok fields
  else if hasOwn call.input "details" then
    invalidField "details" "send either details or line edits (replaceLine, removeLine, appendLine), not both"
  else
    (call.deps.readers.lineEdits call.input call.task.details).bind fun details =>
      if details.any fun text => unitLength text > TASK_DETAILS_LIMIT then
        invalidField "details" "Task details must be no longer than 20000 characters"
      else .ok { fields with details := details }

def editStatus : Edit := whenOwn "status" fun _ value fields =>
  match normalizeStatus value with
  | none => refuse 400 "invalid task status"
  | some status => .ok { fields with status := some status }

def editRestoreHold : Edit := whenOwn "restoreHold" fun call value fields =>
  if !byOperator call.deps || hasOwn call.input "hold" then
    refuse 400 "restoreHold is reserved for fenced operator undo"
  else if value ≠ .null ∧ call.deps.readers.storedHold value = none then refuse 400 "invalid hold snapshot"
  else .ok { fields with hold := call.deps.readers.storedHold value }

/-- A task that is somebody's. -/
def hasOwner (assignments : List TaskAssignment) : Bool :=
  assignments.any fun assignment => assignment.state ≠ .failed

def editHold : Edit := fun call fields =>
  match call.input.at? "hold" with
  | some value =>
      match call.deps.readers.hold value call.task.rest.hold with
      | some hold => .ok { fields with hold := some hold, status := some .blocked }
      | none =>
          let status :=
            if !hasOwn call.input "status" && call.task.status = .blocked then
              some (if hasOwner call.task.rest.assignments then .assigned else .inbox)
            else fields.status
          .ok { fields with hold := none, status := status }
  | none =>
      if fields.status = some .blocked ∧ call.task.rest.hold = none ∧ !hasOwn call.input "restoreHold" then
        .ok { fields with hold := call.deps.readers.hold (.other "\x7b\"kind\":\"unstated\"\x7d") none }
      else .ok fields

def editSteps : Edit := whenOwn "steps" fun call value fields =>
  (call.deps.readers.steps value call.task.rest.steps).map fun steps => { fields with steps := steps }

/-- A move away from Waiting clears the old reason. -/
def clearHold : Edit := fun _ fields =>
  .ok { fields with hold := if fields.status.any (· ≠ .blocked) then none else fields.hold }

/-- A position always pins. -/
def editPos : Edit := whenOwn "pos" fun call value fields =>
  match call.deps.readers.pos value with
  | none => .error (call.deps.readers.posError value)
  | some pos => .ok { fields with pos := some pos, placement := .pinned }

def editBoard : Edit := whenOwn "board" fun call value fields =>
  match normalizeBoardVisibility value with
  | none => invalidField "board" "invalid board visibility"
  | some board =>
      let candidate := { fields with board := some board }.onto call.task
      if !call.deps.allowBoardOverflow && board = .shown && call.deps.showsOnBoard candidate &&
          !call.deps.showsOnBoard call.task &&
          decide (countBoardTasks call.deps call.existing call.task.project ≥ BOARD_TASKS_PER_PROJECT_LIMIT) then
        boardFullError "board"
      else .ok { fields with board := some board }

def TASK_COLORS : List String := ["coral", "amber", "lime", "teal", "sky", "violet", "pink", "slate"]

def editColor : Edit := whenOwn "color" fun _ value fields =>
  match value with
  | .text color =>
      if color = "none" then .ok { fields with color := none }
      else if color ∈ TASK_COLORS then .ok { fields with color := some color }
      else invalidField "color" "color must be one of none, coral, amber, lime, teal, sky, violet, pink, slate"
  | _ => invalidField "color" "color must be one of none, coral, amber, lime, teal, sky, violet, pink, slate"

def editPriority : Edit := whenOwn "priority" fun _ value fields =>
  match readTaskPriority value with
  | none => invalidField "priority" "priority must be one of high, normal, low"
  | some priority => .ok { fields with priority := priority }

def editIcon : Edit := whenOwn "icon" fun call value fields =>
  .ok { fields with icon := call.deps.readers.icon value }

/-- Hiding a group writes the hide and nothing else. -/
def editHide : Edit := whenOwn "hide" fun call value fields =>
  match value with
  | .other "true" =>
      match call.deps.seatHolding call.task with
      | .holds => .error ⟨"this task holds the project's orchestrator seat conversation, which stays on the board; it cannot be hidden", 409, some "TASK_HIDE_PROTECTED", some "hide"⟩
      | .unknown => .error ⟨"the orchestrator seat record could not be read, so the hide was not applied; try again", 503, some "TASK_HIDE_UNVERIFIED", some "hide"⟩
      | .free =>
          let operator := call.deps.actor.all fun actor => actor = .operator
          .ok { fields with
            groupHidden := some ⟨call.deps.now, operator, admissionSnapshot call.task.rest.assignments⟩ }
  | .other "false" => .ok { fields with groupHidden := none }
  | _ => invalidField "hide" "hide must be true or false"

def editPlacement : Edit := whenOwn "placement" fun _ value fields =>
  match normalizePlacement value with
  | none => refuse 400 "invalid placement"
  | some placement =>
      if placement = .pinned ∧ fields.pos = none then invalidField "pos" "task position is required"
      else .ok { fields with placement := placement }

def editLinks : Edit := fun call fields =>
  if hasOwn call.input "attachLinks" || hasOwn call.input "detachLinks" then
    (call.deps.readers.workLinks call.task call.input).map fun edited =>
      { fields with workLinks := edited.getD fields.workLinks }
  else .ok fields

def editDue : Edit := fun call fields =>
  (call.deps.readers.patchDue call.task call.input).map fun edited =>
    { fields with due := edited.getD fields.due }

/-- The blocks of `patchTask`, in order. -/
def edits : List Edit :=
  [editSummary, editProgress, editFindingKey, editNote, editText, editDetails, editLines, editStatus,
    editRestoreHold, editHold, editSteps, clearHold, editPos, editBoard, editColor, editPriority, editIcon,
    editHide, editPlacement, editLinks, editDue]

/-- Both fences name the task that the caller saw. -/
def checkFences (call : PatchCall) : Except TaskRefusal Unit :=
  let required := call.deps.requirePlacementGuards &&
      (hasOwn call.input "pos" || hasOwn call.input "placement") ||
    hasOwn call.input "hide" || hasOwn call.input "restoreHold"
  if !(required || hasOwn call.input "expectedProject" || hasOwn call.input "expectedRevision") then .ok ()
  else
    match ["expectedProject", "expectedRevision"].find? fun field =>
        (normalizeText (get call.input field)).isNone with
    | some field => invalidField field (field ++ " must be a non-empty string copied from the current task")
    | none =>
        if get call.input "expectedProject" ≠ .text call.task.project then
          .error ⟨"expectedProject does not match the current task project; read the task and reconsider the request", 409, some "TASK_PROJECT_MISMATCH", some "expectedProject"⟩
        else
          match get call.input "expectedRevision" with
          | .text revision =>
              if call.deps.readers.matchesShortId (call.deps.readers.taskRevision call.task) revision then .ok ()
              else .error ⟨"expectedRevision is stale; read the task and reconsider the request", 409, some "TASK_REVISION_MISMATCH", some "expectedRevision"⟩
          | _ => .ok ()

/-- Another open task of the project holds the key. -/
def findingConflict (call : PatchCall) (fields : TaskFields) : Bool :=
  fields.findingKey.isSome && fields.status.getD call.task.status ≠ .done &&
    call.existing.any fun row =>
      row.id ≠ call.task.id && row.project = call.task.project && row.status ≠ .done &&
        row.findingKey = fields.findingKey

def PRESENTATION_KEYS : List String :=
  ["color", "icon", "priority", "hide", "attachLinks", "detachLinks", "linkKind", "progress"]

/-- The patch touches presentation only, which is never work on the task. -/
def presentationOnly (input : Input) : Bool :=
  input.keys.all (fun key => key ∈ PRESENTATION_KEYS ∨ key = "expectedProject" ∨ key = "expectedRevision") &&
    input.keys.any (· ∈ PRESENTATION_KEYS)

/-- The operator confirms the status that the task has. -/
def reaffirms (call : PatchCall) (fields : TaskFields) : Bool :=
  fields.status = some .assigned && call.task.status = .assigned && call.deps.statusActor = some .operator &&
    call.input.keys.all (· ∈ ["status", "expectedProject", "expectedRevision"])

/-- The task as the patch leaves it, before its completion record. -/
def patched (call : PatchCall) (fields : TaskFields) : StoredTask :=
  let task := fields.onto call.task
  { task with updatedAt := if presentationOnly call.input then call.task.updatedAt else call.deps.now }

/-- What follows from the patch. -/
def finish (call : PatchCall) (fields : TaskFields) (task : StoredTask) : StoredTask :=
  let task := if hasOwn call.input "board" then { task with boardAutoHidden := false, boardChoice := true }
    else task
  let statusBy :=
    if task.status ≠ call.task.status ∨ reaffirms call fields then
      call.deps.statusActor.map fun actor => ⟨actor, some call.task.status, call.deps.now⟩
    else task.rest.statusBy
  { task with
    pos := if task.placement = .unplaced then none else task.pos
    rest := { task.rest with statusBy := statusBy } }

/-- The list with the row at an index changed. -/
structure Patched where
  tasks : List StoredTask
  task : StoredTask

def liftRefusal {α : Type} : Except TaskRefusal α → Except TaskFailure α
  | .ok value => .ok value
  | .error refusal => .error (.refused refusal)

/-- `patchTask` once the task is found. -/
def patchFound (call : PatchCall) : Except TaskFailure StoredTask :=
  if get call.input "status" = .text "done" ∧ call.task.status ≠ .done ∧
      hasUndeliveredDecision (localTask call.task) then
    .error (.refused ⟨"task has an undelivered decided round; verify delivery before completing it", 409, some "TASK_DECISION_UNDELIVERED", some "status"⟩)
  else do
    liftRefusal (checkFences call)
    let fields ← liftRefusal (Refusals.run (fun fields edit => edit call fields) (fieldsOf call.task) edits)
    if findingConflict call fields then
      .error (.refused ⟨"an open task in this project already holds findingKey", 409, some "TASK_FINDING_KEY_CONFLICT", some "findingKey"⟩)
    else (completed (patched call fields) call.task).map (finish call fields)

/-- The row of an id is found and changed. -/
def changeTask (existing : List StoredTask) (id : String)
    (change : StoredTask → Except TaskFailure StoredTask) : Except TaskFailure Patched :=
  match existing.findIdx? fun task => task.id = id with
  | none => .error (.refused ⟨"task not found", 404, none, none⟩)
  | some index =>
      match existing[index]? with
      | none => .error (.refused ⟨"task not found", 404, none, none⟩)
      | some task => (change task).map fun updated => ⟨existing.set index updated, updated⟩

def patchTask (existing : List StoredTask) (id : String) (input : Input) (deps : CommandDeps) :
    Except TaskFailure Patched :=
  changeTask existing id fun task => patchFound ⟨existing, task, input, deps⟩

/-! ### Creates -/

/-- A receipt of a create; `isMatch` is absent where the create had no key. -/
structure RecentCreate where
  clientRequestId : String
  taskId : String
  isMatch : Option Bool

structure Created where
  tasks : List StoredTask
  task : StoredTask
  recentCreates : List RecentCreate
  replay : Bool
  isMatch : Option Bool

def checkedProject (value : Value) : Except TaskRefusal String :=
  match normalizeProject value with
  | none => refuse 400 "project is required"
  | some project => .ok project

/-- The estimate of a request that has one. -/
def checkedProgress (input : Input) (deps : CommandDeps) : Except TaskRefusal (Option TaskProgress) :=
  match input.at? "progress" with
  | none => .ok none
  | some value => readTaskProgress value deps.now (progressActor deps)

/-- The checks before a replay is looked for: project, text, details, progress and the required date. -/
def checkCreate (input : Input) (deps : CommandDeps) :
    Except TaskRefusal (String × String × Option String × Option TaskProgress) := do
  let project ← checkedProject (get input "project")
  let text ← checkedText (get input "text")
  let details ← normalizeDetails (get input "details")
  let progress ← checkedProgress input deps
  if deps.requireDue ∧ get input "dueAt" ∈ [.undefined, .null, .text ""] then
    .error ⟨"A dueAt date is required for a new task", 400, some "TASK_DUE_REQUIRED", some "dueAt"⟩
  else .ok (project, text, details, progress)

/-- The receipt of an earlier create with the request's id, and the task where it still exists. -/
def replayOf (existing : List StoredTask) (recentCreates : List RecentCreate) (requestId : Option String) :
    Option (RecentCreate × StoredTask) :=
  requestId.bind fun id =>
    (recentCreates.find? fun entry => entry.clientRequestId = id).bind fun prior =>
      (existing.find? fun task => task.id = prior.taskId).map fun task => (prior, task)

/-- `[...].slice(-RECENT_CREATES_CAP)`. -/
def receipt (recentCreates : List RecentCreate) (requestId : Option String) (taskId : String)
    (isMatch : Option Bool) : List RecentCreate :=
  match requestId with
  | none => recentCreates
  | some id =>
      let entries := (recentCreates.filter fun entry => entry.clientRequestId ≠ id) ++ [⟨id, taskId, isMatch⟩]
      entries.drop (entries.length - RECENT_CREATES_CAP)

/-- A request that reports an open finding again. -/
def recurring (input : Input) : Input :=
  let note := match get input "note" with
    | .undefined => .null
    | value => value
  let fields : Input := Table.empty.set ("note", note)
  match input.at? "progress" with
  | none => fields
  | some value => fields.set ("progress", value)

/-- The finding counts one more report. -/
def recounted (deps : CommandDeps) (prior updated : StoredTask) : StoredTask :=
  { updated with rest := { updated.rest with
      finding := some
        { count := (prior.rest.finding.map (·.count)).getD 1 + 1
          lastSeenAt := deps.now
          previousTaskId := prior.rest.finding.bind (·.previousTaskId) } } }

/-- The last done task of the key. -/
def previousTask (existing : List StoredTask) (project key : String) (deps : CommandDeps) :
    Option StoredTask :=
  let seen := fun task : StoredTask => ((task.rest.finding.map (·.lastSeenAt)).getD task.updatedAt).text
  ((existing.filter fun row => row.project = project && row.findingKey = some key && row.status = .done)
    |>.insertionSort fun a b => deps.localeCompare (seen b) (seen a) ≤ 0).head?

/-- Where the task is placed; a position alone pins. -/
def readPlacement (input : Input) (deps : CommandDeps) :
    Except TaskRefusal (TaskPlacement × Option TaskPos) :=
  let pos := deps.readers.pos (get input "pos")
  if hasOwn input "pos" ∧ pos = none then .error (deps.readers.posError (get input "pos"))
  else
    let named := normalizePlacement (get input "placement")
    if get input "placement" ≠ .undefined ∧ named = none ∧ pos = none then refuse 400 "invalid placement"
    else
      match named.orElse fun _ => pos.map fun _ => .pinned with
      | none => invalidField "pos" "task position is required"
      | some .pinned =>
          if pos = none then invalidField "pos" "task position is required" else .ok (.pinned, pos)
      | some placement =>
          if pos.isSome then invalidField "pos" "unplaced task must not carry a position"
          else .ok (placement, none)

/-- `createTask` once no replay and no open finding answers it. -/
def createFresh (existing : List StoredTask) (input : Input) (deps : CommandDeps) (project text : String)
    (details : Option String) (progress : Option TaskProgress) (key : Option String) :
    Except TaskFailure StoredTask := do
  let (placement, pos) ← liftRefusal (readPlacement input deps)
  let due ← liftRefusal (deps.readers.createDue input)
  let attachments ← liftRefusal (deps.readers.attachments (get input "attachments"))
  let source ← liftRefusal (deps.readers.source (get input "source"))
  let board ← liftRefusal (match input.at? "board" with
    | none => .ok none
    | some value =>
        match normalizeBoardVisibility value with
        | none => invalidField "board" "invalid board visibility"
        | some board => .ok (some board))
  let steps ← liftRefusal (deps.readers.steps (get input "steps") none)
  if !deps.allowBoardOverflow ∧ board ≠ some .hidden ∧
      countBoardTasks deps existing project ≥ BOARD_TASKS_PER_PROJECT_LIMIT then
    liftRefusal (boardFullError "project")
  else do
    let hold := deps.readers.hold (get input "hold") none
    let finding := key.map fun key =>
      (⟨1, deps.now, (previousTask existing project key deps).map (·.id)⟩ : Finding)
    let task : StoredTask :=
      { id := deps.id, project := project, findingKey := key
        status := if hold.isSome then .blocked else .inbox
        text := text, details := details, chosen := deps.explicit
        color := deps.readers.color (get input "color")
        icon := (input.at? "icon").bind deps.readers.icon
        priority := (readTaskPriority (get input "priority")).getD none
        placement := placement, pos := pos, workLinks := none, machine := none, handover := none
        ownReview := none, prototypeReviewReplica := none
        board := board, boardAutoHidden := false, boardChoice := false, proactive := false
        createdAt := deps.now, updatedAt := deps.now, sync := none
        rest := { (default : TaskPart) with
          finding := finding
          hold := hold
          progress := progress
          steps := steps
          due := due
          statusBy := deps.statusActor.map fun actor => ⟨actor, none, deps.now⟩
          attachments := attachments
          source := source } }
    match key, input.at? "note" with
    | some _, some note =>
        (patchTask [task] deps.id (Table.empty.set ("note", note)) deps).map fun noted => noted.task
    | _, _ => .ok task

/-- `clientRequestId`, where it is no blank string. -/
def clientRequestId (input : Input) : Option String := normalizeText (get input "clientRequestId")

def createTask (existing : List StoredTask) (input : Input) (recentCreates : List RecentCreate)
    (deps : CommandDeps) : Except TaskFailure Created := do
  let (project, text, details, progress) ← liftRefusal (checkCreate input deps)
  match replayOf existing recentCreates (clientRequestId input) with
  | some (prior, task) => .ok ⟨existing, task, recentCreates, true, prior.isMatch⟩
  | none => do
      let key ← liftRefusal (readFindingKey (get input "findingKey"))
      -- keyed admission uses the project identity that the store persists
      let project := if key.isSome then deps.canonicalProject project else project
      let held := key.bind fun key => existing.find? fun task =>
        task.project = project && task.findingKey = some key && task.status ≠ .done
      match held with
      | some prior => do
          let updated ← patchTask existing prior.id (recurring input) deps
          let task := recounted deps prior updated.task
          .ok ⟨updated.tasks.map fun row => if row.id = task.id then task else row, task,
            receipt recentCreates (clientRequestId input) task.id (some true), false, some true⟩
      | none => do
          let task ← createFresh existing input deps project text details progress key
          let isMatch := key.map fun _ => false
          .ok ⟨existing ++ [task], task,
            receipt recentCreates (clientRequestId input) deps.id isMatch, false, isMatch⟩

/-! ### Assignments -/

def LAUNCH_NOT_STARTED_ERROR : String := "launch did not start (dismissed)"

/-- A launch that never started becomes a failed row. -/
def dismissed (ref : AssignmentRef) (now : Instant) (assignment : TaskAssignment) : TaskAssignment :=
  if (assignment.state = .failed ∧ assignment.error = some LAUNCH_NOT_STARTED_ERROR) ∨
      assignmentMatchesRef ref assignment = false then assignment
  else { assignment with state := .failed, error := some LAUNCH_NOT_STARTED_ERROR, at_ := now }

/-- An unnamed task that only an agent's launch made. -/
def isPlaceholder (task : StoredTask) : Bool :=
  task.rest.origin.any fun origin =>
    origin.refinement = .pending && (origin.kind = .launch || origin.kind = .conversation)

def dismissUnstartedLaunch (existing : List StoredTask) (id : String) (ref : AssignmentRef) (now : Instant)
    (linkedPipeline : Bool) : Except TaskFailure Patched :=
  changeTask existing id fun task =>
    if ref.launchId = none ∧ ref.conversationId = none then
      .error (.refused ⟨"launchId or conversationId is required", 400, none, none⟩)
    else
      let assignments := task.rest.assignments.map (dismissed ref now)
      if assignments = task.rest.assignments then .ok task
      else
        let settled := isPlaceholder task && !hasUndeliveredDecision (localTask task) && !linkedPipeline &&
          task.status ≠ .done && assignments.all fun assignment => assignment.state = .failed
        completed
          { task with
            status := if settled then .done else task.status
            updatedAt := now
            rest := { task.rest with assignments := assignments } } task

/-- A patch of one row; an identifier that it leaves out is none. -/
structure AssignmentPatch where
  launchId : Option (Option String)
  clientAttemptId : Option (Option String)
  conversationId : Option (Option String)
  path : Option String
  panePid : Option Nat
  state : AssignmentState
  error : Option String
  at_ : Instant
  accountId : Option (Option String)
  engine : Option (Option Engine)

/-- The row that the patch is of. -/
def AssignmentPatch.matches (patch : AssignmentPatch) (assignment : TaskAssignment) : Bool :=
  if truthy patch.launchId.join && truthy assignment.launchId then
    assignment.launchId = patch.launchId.join
  else if patch.path ≠ none ∧ assignment.path = patch.path then true
  else patch.path = none && patch.panePid ≠ none && assignment.path = none &&
    assignment.panePid = patch.panePid

def mergeAssignment (assignments : List TaskAssignment) (patch : AssignmentPatch) : List TaskAssignment :=
  let index := assignments.findIdx? patch.matches
  let previous := index.bind (assignments[·]?)
  let merged : TaskAssignment :=
    { statusBeforeLink := none
      launchId := patch.launchId.getD (previous.bind (·.launchId))
      clientAttemptId := patch.clientAttemptId.getD (previous.bind (·.clientAttemptId))
      path := patch.path
      conversationId := patch.conversationId.getD (previous.bind (·.conversationId))
      panePid := patch.panePid
      state := patch.state
      error := patch.error
      at_ := patch.at_
      accountId := patch.accountId.join
      engine := patch.engine.join }
  match index with
  | some index => assignments.set index merged
  | none => assignments ++ [merged]

def mergeAssignments (assignments : List TaskAssignment) (patches : List AssignmentPatch) :
    List TaskAssignment :=
  patches.foldl mergeAssignment assignments

def applyAssignmentPatches (existing : List StoredTask) (id : String) (patches : List AssignmentPatch)
    (now : Instant) : Except TaskFailure Patched :=
  changeTask existing id fun task =>
    let assignments := mergeAssignments task.rest.assignments patches
    let status :=
      if task.status = .inbox ∨ task.status = .assigned then
        if hasOwner assignments then .assigned else .inbox
      else task.status
    .ok { task with
      status := status
      updatedAt := now
      rest := { task.rest with assignments := assignments } }

/-! ### The store -/

/-- What the writes of this install take from outside the store. -/
structure BoardContext where
  linked : List String
  self : Self
  now : Minting → Int
  drawn : Drawn
  showsOnBoard : StoredTask → Bool

/-- A membership of the local part, on the row that it is written to. -/
def placed (tasks : List StoredTask) : Membership LocalPart → Membership TaskPart
  | .upsertLinked id added updatedAt rest =>
      let held := ((tasks.find? fun task => task.id = id).map (·.rest)).getD default
      .upsertLinked id added updatedAt { held with toLocalPart := rest }
  | .placeholder id text createdAt rest =>
      .placeholder id text createdAt { (default : TaskPart) with toLocalPart := rest }

def BoardContext.write (context : BoardContext) : WriteContext TaskPart where
  linked := context.linked
  self := context.self
  now := context.now
  settle := fun prior task =>
    let previous := match prior with
      | some prior => { localTask task with status := prior.status }
      | none => localTask task
    (withTaskCompletion (localTask task) previous).map fun part => { task.rest with toLocalPart := part }
  lostMemberships := fun tasks task =>
    (replaceLostMemberships context.drawn (tasks.map localTask) (localTask task)).map fun memberships =>
      memberships.map (placed tasks)
  showsOnBoard := context.showsOnBoard

/-- What is stored, with the row budgets of the process. -/
structure Board where
  install : Install TaskPart
  recentCreates : List RecentCreate

def Board.tasks (board : Board) : List StoredTask := board.install.store.tasks.rows

/-- A write of the task list; an id that occurs twice fails it. -/
def Board.commit (board : Board) (context : BoardContext) (tasks : List StoredTask)
    (recentCreates : List RecentCreate) : Except TaskFailure Board :=
  if h : (tasks.map BoardTask.id).Nodup then
    match mutateTasks context.write board.install.store fun _ => .ok (some ⟨tasks, h⟩) with
    | .ok (store, _) => .ok ⟨{ board.install with store := store }, recentCreates⟩
    | .error error => .error (.thrown error)
  else .error (.thrown "duplicate persisted task id")

/-- `deleteTask`, with the conversations that it leaves bound elsewhere. -/
def deleteTask (context : BoardContext) (tasks : Tasks TaskPart) (id : String) :
    Except TaskFailure (List StoredTask) :=
  match tasks.get? id with
  | none => .error (.refused ⟨"task not found", 404, none, none⟩)
  | some task =>
      match LinkedBoards.deleteTask context.write tasks task with
      | .ok rest => .ok rest.rows
      | .error error =>
          if task.proactive then .error (.refused ⟨error, 403, none, none⟩) else .error (.thrown error)

inductive Command where
  | createTask (input : Input) (deps : CommandDeps)
  | patchTask (id : String) (input : Input) (deps : CommandDeps)
  | dismissUnstartedLaunch (id : String) (ref : AssignmentRef) (now : Instant) (linkedPipeline : Bool)
  | applyAssignmentPatches (id : String) (patches : List AssignmentPatch) (now : Instant)
  | deleteTask (id : String)
  | applyTaskRows (link : ApplyLink) (now : Int) (rows : List WireRow)

/-- The board after a command that is not refused. -/
def Board.run (checks : WireChecks) (board : Board) (context : BoardContext) :
    Command → Except TaskFailure Board
  | .createTask input deps => do
      let created ← TaskCommands.createTask board.tasks input board.recentCreates deps
      -- a replay writes nothing
      if created.replay then .ok board
      else board.commit context created.tasks created.recentCreates
  | .patchTask id input deps => do
      let out ← TaskCommands.patchTask board.tasks id input deps
      board.commit context out.tasks board.recentCreates
  | .dismissUnstartedLaunch id ref now linkedPipeline => do
      let out ← TaskCommands.dismissUnstartedLaunch board.tasks id ref now linkedPipeline
      board.commit context out.tasks board.recentCreates
  | .applyAssignmentPatches id patches now => do
      let out ← TaskCommands.applyAssignmentPatches board.tasks id patches now
      board.commit context out.tasks board.recentCreates
  | .deleteTask id => do
      let tasks ← TaskCommands.deleteTask context board.install.store.tasks id
      board.commit context tasks board.recentCreates
  | .applyTaskRows link now rows =>
      match LinkedBoards.applyTaskRows checks context.write link now board.install rows with
      | .ok (install, _) => .ok { board with install := install }
      | .error error => .error (.thrown error)

/-- One command; a refused one leaves the board. -/
def Board.step (checks : WireChecks) (board : Board) (call : BoardContext × Command) :
    Board × Option TaskFailure :=
  match board.run checks call.1 call.2 with
  | .ok board => (board, none)
  | .error failure => (board, some failure)

end Delegatus.TaskCommands
