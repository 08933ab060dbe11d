import Delegatus.LinkedMembership

/-!
# Task membership

Every conversation that the board admits belongs to a task.  `ensureTaskMembership` resolves
or creates the tasks of a launch or a conversation over a task list and records its
assignment there; `deleteTask` and `removeAssignment` bind the conversations that a removed
row leaves without a task.

`LinkedMembership` has the rows, the identities and `upsertLinked`; the admission there is the
part of this one that a deletion on a linked board takes.
-/

namespace Delegatus.TaskMembership

open LinkStamps (Instant)
open LinkedBoards (LocalPart LocalTask MembershipIdentity OriginKind TaskAssignment
  UNTITLED_TASK_TEXT assignmentHoldsIdentity hasIdentity truthy upsertLinked withTaskCompletion)

/-! ### Inputs and results -/

structure MembershipRefusal where
  error : String
  status : Nat
  code : Option String
  deriving DecidableEq

/-- What an admission ends with instead of a result: a refusal, or the error that a task which
becomes done throws. -/
inductive MembershipFailure where
  | refused (refusal : MembershipRefusal)
  | thrown (error : String)
  deriving DecidableEq

/-- A launch's check of the tasks it resolved to. -/
abbrev MembershipAdmission := List LocalTask → Option MembershipRefusal

/-- `admitRelated`: the check of the tasks that record related identities. -/
structure RelatedAdmission where
  identities : List MembershipIdentity
  taskIds : List String
  admission : MembershipAdmission

/-- An origin is its kind and its key. -/
structure MembershipInput where
  project : String
  origin : OriginKind × String
  title : Option String
  description : Option String
  identity : MembershipIdentity
  explicitTaskIds : List String
  fallbackOrigin : Option (OriginKind × String)
  inherit : List MembershipIdentity
  titled : Bool
  admission : Option MembershipAdmission
  admitRelated : Option RelatedAdmission

structure MembershipResult where
  tasks : List LocalTask
  taskIds : List String
  created : List String
  changed : Bool
  deriving DecidableEq

/-- One reading of the clock and one random id. -/
structure MembershipDeps where
  now : Instant
  id : String

def refuse {α : Type} (status : Nat) (error : String) : Except MembershipFailure α :=
  .error (.refused ⟨error, status, none⟩)

/-! ### Titles -/

/-- Newly refined titles stay short. -/
def PLACEHOLDER_TITLE_LIMIT : Nat := 80

/-- The first `limit` code units; a pair that is cut in two reads as the replacement
character. -/
def sliceUnits (limit : Nat) : List Char → List Char
  | [] => []
  | c :: rest =>
    if (JsStrings.charUnits c).length ≤ limit then
      c :: sliceUnits (limit - (JsStrings.charUnits c).length) rest
    else if limit = 0 then []
    else [Char.ofNat 0xFFFD]

def normalizeTitle (title : Option String) : String :=
  let first := JsStrings.trim (String.ofList ((title.getD "").toList.takeWhile (· ≠ '\n')))
  if first = "" then UNTITLED_TASK_TEXT
  else if (JsStrings.codeUnits first).length > PLACEHOLDER_TITLE_LIMIT then
    let cut := sliceUnits (PLACEHOLDER_TITLE_LIMIT - 1) first.toList
    String.ofList ((cut.reverse.dropWhile JsStrings.isSpace).reverse) ++ "…"
  else first

/-- The text of a placeholder: its title, and the description where there is one. -/
def placeholderText (input : MembershipInput) : String :=
  "\n".intercalate
    ([normalizeTitle input.title, JsStrings.trim (input.description.getD "")].filter (· ≠ ""))

/-! ### Which tasks -/

/-- Whether the row carries the admission key of a launch: its launch id or its attempt. -/
def sameKey (assignment : TaskAssignment) (identity : MembershipIdentity) : Bool :=
  if truthy identity.launchId && truthy assignment.launchId then
    assignment.launchId = identity.launchId
  else
    truthy identity.clientAttemptId && assignment.clientAttemptId = identity.clientAttemptId

/-- A live row of the task records the identity. -/
def holds (identity : MembershipIdentity) (task : LocalTask) : Bool :=
  task.rest.assignments.any (fun assignment =>
    decide (assignment.state ≠ .failed) && assignmentHoldsIdentity assignment identity)

/-- A live row of the task carries the identity's key. -/
def keyed (identity : MembershipIdentity) (task : LocalTask) : Bool :=
  task.rest.assignments.any (fun assignment =>
    decide (assignment.state ≠ .failed) && sameKey assignment identity)

/-- Some row of the task, a failed one too, carries the identity's key. -/
def carriesKey (identity : MembershipIdentity) (task : LocalTask) : Bool :=
  task.rest.assignments.any (fun assignment => sameKey assignment identity)

def hasOrigin (origin : OriginKind × String) (task : LocalTask) : Bool :=
  task.rest.origin.any (fun held => decide (held.kind = origin.1 ∧ held.key = origin.2))

/-- The task is the one that `origin` resolves to in `project`. -/
def ofOrigin (project : String) (origin : OriginKind × String) (task : LocalTask) : Bool :=
  decide (task.project = project) && hasOrigin origin task

/-- A live row of the task records one of the participants. -/
def inherits (participants : List MembershipIdentity) (task : LocalTask) : Bool :=
  (participants.filter hasIdentity).any (fun identity => holds identity task)

/-- The places of a list where `wanted` holds, in order. -/
def indexesOf (wanted : LocalTask → Bool) (tasks : List LocalTask) : List Nat :=
  (List.range tasks.length).filter (fun index => tasks[index]?.any wanted)

/-! ### Recording -/

/-- `commit` of one task: the upsert, and the completion it settles. -/
def commitMember (identity : MembershipIdentity) (now : Instant) (state : List LocalTask × Bool)
    (index : Nat) : Except MembershipFailure (List LocalTask × Bool) :=
  match state.1[index]? with
  | none => .ok state
  | some task =>
    let next := upsertLinked task identity now
    if next.2 then
      match withTaskCompletion next.1 task with
      | .ok rest => .ok (state.1.set index { next.1 with rest := rest }, true)
      | .error error => .error (.thrown error)
    else .ok state

/-- The tasks at `indexes` are admitted and each records the identity. -/
def joinTasks (existing : List LocalTask) (input : MembershipInput) (now : Instant)
    (indexes : List Nat) (taskIds : List String) : Except MembershipFailure MembershipResult :=
  match input.admission.bind (fun admission => admission (indexes.filterMap (existing[·]?))) with
  | some refusal => .error (.refused refusal)
  | none =>
    (Refusals.run (commitMember input.identity now) (existing, false) indexes).map
      fun state => ⟨state.1, taskIds, [], state.2⟩

/-- The ids of the tasks at `indexes`. -/
def idsAt (tasks : List LocalTask) (indexes : List Nat) : List String :=
  indexes.filterMap (fun index => tasks[index]?.map LinkedBoards.BoardTask.id)

/-- A placeholder without rows. -/
def barePlaceholder (input : MembershipInput) (deps : MembershipDeps) : LocalTask :=
  { id := deps.id, project := JsStrings.trim input.project, status := .inbox
    text := placeholderText input
    details := none, chosen := false, color := none, icon := none, priority := none
    placement := .unplaced, pos := none, workLinks := none, machine := none, handover := none
    ownReview := none, prototypeReviewReplica := none
    board := none, boardAutoHidden := false, boardChoice := false
    findingKey := none, proactive := false
    createdAt := deps.now, updatedAt := deps.now, sync := none
    rest := { (default : LocalPart) with
      origin := some ⟨input.origin.1, input.origin.2,
        if input.titled && JsStrings.trim (input.title.getD "") ≠ "" then .titled else .pending⟩ } }

/-- The placeholder binds every recorded participant beside the launch itself. -/
def placeholder (input : MembershipInput) (deps : MembershipDeps) : LocalTask :=
  (input.inherit.filter hasIdentity).foldl
    (fun bound identity => (upsertLinked bound identity deps.now).1)
    (upsertLinked (barePlaceholder input deps) input.identity deps.now).1

/-! ### Admission -/

/-- The tasks that an admission's related identities name. -/
def relatedTasks (related : RelatedAdmission) (tasks : List LocalTask) : List LocalTask :=
  tasks.filter (fun task =>
    decide (task.id ∈ related.taskIds) || task.rest.assignments.any (fun assignment =>
      related.identities.any (fun identity => assignmentHoldsIdentity assignment identity)))

/-- The check of related tasks, made before any other. -/
def checkRelated (existing : List LocalTask) (related : RelatedAdmission) :
    Option MembershipRefusal :=
  if related.taskIds.any (fun id => !(relatedTasks related existing).any (fun task => task.id = id)) then
    some ⟨"retained task authority is unavailable; operator recovery required", 403,
      some "PROACTIVE_EXECUTION_FENCED"⟩
  else related.admission (relatedTasks related existing)

/-- The checks that every admission starts with. -/
def precheck (existing : List LocalTask) (input : MembershipInput) :
    Except MembershipFailure Unit :=
  if JsStrings.trim input.project = "" ∧ input.explicitTaskIds = [] then
    refuse 400 "project is required"
  else if JsStrings.trim input.origin.2 = "" then refuse 400 "membership origin key is required"
  else if !hasIdentity input.identity then
    refuse 400 "membership needs a launch, conversation or path identity"
  else
    match input.admitRelated.bind (checkRelated existing) with
    | some refusal => .error (.refused refusal)
    | none => .ok ()

/-- The places of the tasks that an admission without targets resolves to: the task of its
origin, else every task that holds the identity, else those of the participants it joins. -/
def resolved (existing : List LocalTask) (input : MembershipInput) : Option (List Nat) :=
  match existing.findIdx? (ofOrigin (JsStrings.trim input.project) input.origin) with
  | some index => some [index]
  | none =>
    let held := indexesOf (holds input.identity) existing
    let inherited := indexesOf (inherits input.inherit) existing
    if held ≠ [] then some held
    else if inherited ≠ [] then some inherited
    else none

/-- `ensureTaskMembership` without explicit targets: the resolved tasks, else a placeholder,
which no admission checks. -/
def ensureUntargeted (existing : List LocalTask) (input : MembershipInput)
    (deps : MembershipDeps) : Except MembershipFailure MembershipResult :=
  (precheck existing input).bind fun _ =>
    match resolved existing input with
    | some indexes => joinTasks existing input deps.now indexes (idsAt existing indexes)
    | none => .ok ⟨existing ++ [placeholder input deps], [deps.id], [deps.id], true⟩

/-- The input of the recursion that a fallback origin takes. -/
def MembershipInput.fallingBack (input : MembershipInput) (origin : OriginKind × String) :
    MembershipInput :=
  { input with origin := origin, explicitTaskIds := [], fallbackOrigin := none }

/-- The task that an earlier call recorded the launch on under the fallback origin. -/
def recordedFallback (existing : List LocalTask) (input : MembershipInput) : Option LocalTask :=
  input.fallbackOrigin.bind fun origin =>
    existing.find? (fun task =>
      ofOrigin (JsStrings.trim input.project) origin task && carriesKey input.identity task)

/-- The placeholder minted for this key: the original had no target. -/
def placeholderForKey (existing : List LocalTask) (input : MembershipInput) : Option LocalTask :=
  let project := JsStrings.trim input.project
  existing.find? (fun task =>
    decide (project = "" ∨ task.project = project) && hasOrigin input.origin task)

/-- `[...new Set(ids)]`. -/
def unique (ids : List String) : List String :=
  ids.foldl (fun seen id => if id ∈ seen then seen else seen ++ [id]) []

/-- The places of the explicit targets. -/
def targetIndexes (existing : List LocalTask) (input : MembershipInput) : List Nat :=
  (unique input.explicitTaskIds).filterMap
    (fun id => existing.findIdx? (fun task => task.id = id))

/-- The targets, where all of them exist; a fallback origin stands in for a removed one.
`canonicalProject` is the project that a project's aliases stand for. -/
def joinTargets (canonicalProject : String → String) (existing : List LocalTask)
    (input : MembershipInput) (deps : MembershipDeps) :
    Except MembershipFailure MembershipResult :=
  let project := JsStrings.trim input.project
  let targets := unique input.explicitTaskIds
  match targets.find? (fun id => !existing.any (fun task => task.id = id)) with
  | some missing =>
    match input.fallbackOrigin with
    | some origin => ensureUntargeted existing (input.fallingBack origin) deps
    | none => refuse 404 ("task " ++ missing ++ " is not available")
  | none =>
    let projects := ((targetIndexes existing input).filterMap (existing[·]?)).map
      (fun task => canonicalProject task.project)
    if (unique projects).length > 1 ∨ (project ≠ "" ∧ canonicalProject project ∉ projects) then
      refuse 409 "explicit tasks must belong to the launch's project"
    else joinTasks existing input deps.now (targetIndexes existing input) targets

/-- Explicit targets, where no recorded fallback takes over: a retry keeps its target set. -/
def ensureTargeted (canonicalProject : String → String) (existing : List LocalTask)
    (input : MembershipInput) (deps : MembershipDeps) :
    Except MembershipFailure MembershipResult :=
  let targets := unique input.explicitTaskIds
  let keyedTasks := existing.filter (keyed input.identity)
  if (placeholderForKey existing input).any (fun task => task.id ∉ targets) then
    refuse 409 "this launch was admitted without a task target; a retry cannot add one"
  else if keyedTasks ≠ [] ∧
      (keyedTasks.length ≠ targets.length ∨ keyedTasks.any (fun task => task.id ∉ targets)) then
    refuse 409 "this launch was admitted with a different task target set; a retry keeps the original"
  else joinTargets canonicalProject existing input deps

/-- Resolves or creates the tasks a conversation or launch belongs to, and records it there. -/
def ensureTaskMembership (canonicalProject : String → String) (existing : List LocalTask)
    (input : MembershipInput) (deps : MembershipDeps) :
    Except MembershipFailure MembershipResult :=
  if input.explicitTaskIds = [] then ensureUntargeted existing input deps
  else
    (precheck existing input).bind fun _ =>
      match input.fallbackOrigin, recordedFallback existing input with
      | some origin, some recorded =>
        if (existing.filter (keyed input.identity)).all (fun task => task.id = recorded.id) then
          ensureUntargeted existing (input.fallingBack origin) deps
        else ensureTargeted canonicalProject existing input deps
      | _, _ => ensureTargeted canonicalProject existing input deps

end Delegatus.TaskMembership
