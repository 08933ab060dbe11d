import Delegatus.LinkedDeletion
import Delegatus.JsStrings
import Delegatus.Refusals

/-!
# The local part of a task, and what a deletion does with it

The assignments of a task, its admission origin, its review decisions and its completion
record never cross a link, but two steps of an applied page read them.  A deletion binds
every conversation that no other task records to the task of its admission origin, or to a
new placeholder (`replaceLostMemberships`); and a committed row that becomes done settles
its completion record, which an undelivered decision refuses (`withTaskCompletion`).

`LocalContext.write` is the context of the writes of such tasks.
-/

namespace Delegatus.LinkedBoards

open LinkStamps

/-! ### Assignments -/

inductive AssignmentState where
  | delivered
  | failed
  | spawning
  | handoff
  | linked
  deriving DecidableEq

inductive Engine where
  | claude
  | codex
  deriving DecidableEq

structure TaskAssignment where
  statusBeforeLink : Option TaskStatus
  launchId : Option String
  clientAttemptId : Option String
  path : Option String
  conversationId : Option String
  panePid : Option Nat
  state : AssignmentState
  error : Option String
  at_ : Instant
  accountId : Option String
  engine : Option Engine
  deriving DecidableEq

inductive OriginKind where
  | conversation
  | launch
  | pipeline
  | flow
  deriving DecidableEq

inductive Refinement where
  | pending
  | titled
  deriving DecidableEq

/-- Why a task exists that no operator created. -/
structure TaskOrigin where
  kind : OriginKind
  key : String
  refinement : Refinement
  deriving DecidableEq

inductive PrototypeDeliveryState where
  | pending
  | sent
  | failed
  | uncertain
  | noOrchestrator
  deriving DecidableEq

/-- The delivery of a decided round; `settlement` says that it was settled otherwise. -/
structure PrototypeDelivery where
  state : PrototypeDeliveryState
  settlement : Bool
  deriving DecidableEq

/-- What a task stores that never crosses: `decisions` holds one entry for each of its
review rounds, with the delivery of its decision where it is decided. -/
structure LocalPart where
  assignments : List TaskAssignment
  origin : Option TaskOrigin
  decisions : List (Option PrototypeDelivery)
  doneAt : Option Instant
  doneAdmissions : Option (List String)
  deriving DecidableEq

/-- A task that has nothing local yet. -/
instance : Inhabited LocalPart := ⟨⟨[], none, [], none, none⟩⟩

abbrev LocalTask := BoardTask LocalPart

/-! ### Identities -/

structure MembershipIdentity where
  conversationId : Option String
  launchId : Option String
  clientAttemptId : Option String
  path : Option String
  engine : Option Engine
  accountId : Option String

/-- Truthiness of a string field. -/
def truthy (field : Option String) : Bool := field.any (fun text => text ≠ "")

def hasIdentity (identity : MembershipIdentity) : Bool :=
  truthy identity.launchId || truthy identity.clientAttemptId || truthy identity.conversationId ||
    truthy identity.path

/-- Whether an assignment records this identity: the conversation decides first, then the
launch and its attempt, and the path last. -/
def assignmentHoldsIdentity (assignment : TaskAssignment) (identity : MembershipIdentity) : Bool :=
  if truthy identity.conversationId && truthy assignment.conversationId then
    assignment.conversationId = identity.conversationId
  else if truthy identity.launchId && truthy assignment.launchId then
    assignment.launchId = identity.launchId
  else if truthy identity.clientAttemptId && truthy assignment.clientAttemptId then
    assignment.clientAttemptId = identity.clientAttemptId
  else truthy identity.path && assignment.path = identity.path

/-- The identity a row stands for, or none for a row that names nothing. -/
def assignmentIdentity (assignment : TaskAssignment) : Option MembershipIdentity :=
  let identity : MembershipIdentity :=
    { conversationId := assignment.conversationId, launchId := assignment.launchId
      clientAttemptId := assignment.clientAttemptId, path := assignment.path
      engine := assignment.engine, accountId := assignment.accountId }
  if hasIdentity identity then some identity else none

/-- The admission origin that a replacement of this row carries. -/
def assignmentAdmissionOrigin (assignment : TaskAssignment) : Option (OriginKind × String) :=
  match nonEmpty (assignment.clientAttemptId.orElse (fun _ => assignment.launchId)) with
  | some key => some (.launch, key)
  | none =>
    match nonEmpty (assignment.conversationId.orElse (fun _ => assignment.path)) with
    | some key => some (.conversation, key)
    | none => none

/-- Whether any task still records a live assignment for the identity. -/
def identityHeldBy (tasks : List LocalTask) (identity : MembershipIdentity) : Bool :=
  tasks.any (fun task =>
    task.rest.assignments.any (fun assignment =>
      decide (assignment.state ≠ .failed) && assignmentHoldsIdentity assignment identity))

/-! ### Completion -/

/-- A delivery that needs nothing more. -/
def prototypeDeliverySettled (delivery : PrototypeDelivery) : Bool :=
  delivery.state = .sent || delivery.settlement

def hasUndeliveredDecision (task : LocalTask) : Bool :=
  task.rest.decisions.any (fun decision => decision.any (fun delivery => !prototypeDeliverySettled delivery))

def admissionKeys (assignment : TaskAssignment) : List String :=
  [assignment.clientAttemptId, assignment.launchId, assignment.conversationId,
    assignment.path].filterMap nonEmpty

/-- Every identifier of the live admissions, sorted. -/
def admissionSnapshot (assignments : List TaskAssignment) : List String :=
  JsStrings.sort ((assignments.filter (fun assignment => assignment.state ≠ .failed)).flatMap
    admissionKeys).dedup

/-- The completion record of a done task that was `previous`. -/
def completedPart (task previous : LocalTask) : LocalPart :=
  let entering := decide (previous.status ≠ .done)
  let admissions :=
    match task.rest.doneAdmissions, previous.rest.doneAdmissions with
    | some admissions, _ => admissions
    | none, some admissions => admissions
    | none, none => admissionSnapshot previous.rest.assignments
  -- only a new identity starts a window; a failed row has none
  let newAdmission := task.rest.assignments.any (fun assignment =>
    let keys := admissionKeys assignment
    decide (assignment.state ≠ .failed) && !keys.isEmpty && !keys.any (· ∈ admissions))
  if !entering && !newAdmission && task.rest.doneAt.isSome && task.rest.doneAdmissions.isSome then
    task.rest
  else if entering || newAdmission then
    { task.rest with
      doneAt := some task.updatedAt
      doneAdmissions := some (admissionSnapshot task.rest.assignments) }
  else
    { task.rest with
      doneAt := some ((task.rest.doneAt.orElse (fun _ => previous.rest.doneAt)).getD previous.updatedAt)
      doneAdmissions := some admissions }

/-- The completion record of `task`, which was `previous`.  A task that becomes done while
a decision of it is undelivered refuses. -/
def withTaskCompletion (task previous : LocalTask) : Except String LocalPart :=
  if task.status ≠ .done then .ok { task.rest with doneAt := none, doneAdmissions := none }
  else if previous.status ≠ .done ∧ hasUndeliveredDecision task then
    .error "task has an undelivered decided round; verify delivery before completing it"
  else .ok (completedPart task previous)

/-! ### Membership -/

/-- Upserts one assignment that carries the identity: a held row gains the identifiers it
lacked, a new row is `linked`.  The task, and whether anything changed. -/
def upsertLinked (task : LocalTask) (identity : MembershipIdentity) (now : Instant) :
    LocalTask × Bool :=
  match task.rest.assignments.findIdx? (fun assignment => assignmentHoldsIdentity assignment identity) with
  | some index =>
    let fill := fun {α : Type} (held given : Option α) (given? held? : Bool) =>
      if given? && !held? then given else held
    let merge := fun (current : TaskAssignment) =>
      { current with
        launchId := fill current.launchId identity.launchId
          (truthy identity.launchId) (truthy current.launchId)
        clientAttemptId := fill current.clientAttemptId identity.clientAttemptId
          (truthy identity.clientAttemptId) (truthy current.clientAttemptId)
        conversationId := fill current.conversationId identity.conversationId
          (truthy identity.conversationId) (truthy current.conversationId)
        path := current.path.orElse (fun _ => identity.path)
        engine := fill current.engine identity.engine identity.engine.isSome current.engine.isSome
        accountId := fill current.accountId identity.accountId
          (truthy identity.accountId) (truthy current.accountId) }
    let assignments := task.rest.assignments.modify index merge
    if assignments = task.rest.assignments then (task, false)
    else
      ({ task with rest := { task.rest with assignments := assignments }, updatedAt := now }, true)
  | none =>
    let assignment : TaskAssignment :=
      { statusBeforeLink := if truthy identity.launchId then some task.status else none
        launchId := nonEmpty identity.launchId
        clientAttemptId := nonEmpty identity.clientAttemptId
        path := identity.path
        conversationId := nonEmpty identity.conversationId
        panePid := none
        state := .linked
        error := none
        at_ := now
        accountId := nonEmpty identity.accountId
        engine := identity.engine }
    let status := if task.status = .inbox then .assigned else task.status
    ({ task with
        status := status
        rest := { task.rest with assignments := task.rest.assignments ++ [assignment] }
        updatedAt := now }, true)

/-- What an admission reads here: the project and origin of a placeholder, and who is
admitted. -/
structure MembershipInput where
  project : String
  origin : OriginKind × String
  identity : MembershipIdentity

/-- The writes of one task for an admission: the upsert and its settled completion. -/
def commitMembership (task : LocalTask) (identity : MembershipIdentity) (now : Instant) :
    Except String (List (Membership LocalPart)) :=
  let next := upsertLinked task identity now
  if next.2 then
    (withTaskCompletion next.1 task).map fun rest =>
      [.upsertLinked task.id (decide (next.1.status ≠ task.status)) next.1.updatedAt rest]
  else .ok []

/-- The writes of several tasks for one admission. -/
def commitMemberships (tasks : List LocalTask) (identity : MembershipIdentity) (now : Instant) :
    Except String (List (Membership LocalPart)) :=
  match tasks with
  | [] => .ok []
  | task :: rest =>
    match commitMembership task identity now, commitMemberships rest identity now with
    | .ok first, .ok others => .ok (first ++ others)
    | .error error, _ => .error error
    | .ok _, .error error => .error error

/-- A placeholder that holds the identity, as a new row under a random id. -/
def placeholderFor (input : MembershipInput) (project id : String) (now : Instant) :
    Membership LocalPart :=
  let bare : LocalTask :=
    { id := id, project := project, status := .inbox, text := UNTITLED_TASK_TEXT
      details := none, chosen := false, color := none, icon := none, priority := none
      placement := .unplaced, pos := none, workLinks := none, machine := none, handover := none
      ownReview := none, prototypeReviewReplica := none
      board := none, boardAutoHidden := false, boardChoice := false
      findingKey := none, proactive := false
      createdAt := now, updatedAt := now, sync := none
      rest := { (default : LocalPart) with
        origin := some ⟨input.origin.1, input.origin.2, .pending⟩ } }
  .placeholder id bare.text now (upsertLinked bare input.identity now).1.rest

/-- Resolves the tasks that an admission belongs to, as the writes that record it: the task
of its origin, else every task that holds the identity, else a placeholder.  A deletion
names no explicit targets, no participants to inherit from and no admission check. -/
def ensureTaskMembership (tasks : List LocalTask) (input : MembershipInput) (now : Instant)
    (id : String) : Except String (List (Membership LocalPart)) :=
  let project := JsStrings.trim input.project
  if project = "" then .error "project is required"
  else if JsStrings.trim input.origin.2 = "" then .error "membership origin key is required"
  else if !hasIdentity input.identity then
    .error "membership needs a launch, conversation or path identity"
  else
    let ofOrigin := tasks.find? (fun task =>
      decide (task.project = project) && task.rest.origin.any (fun origin =>
        decide (origin.kind = input.origin.1 ∧ origin.key = input.origin.2)))
    match ofOrigin with
    | some task => commitMembership task input.identity now
    | none =>
      let held := tasks.filter (fun task =>
        task.rest.assignments.any (fun assignment =>
          decide (assignment.state ≠ .failed) && assignmentHoldsIdentity assignment input.identity))
      if held ≠ [] then commitMemberships held input.identity now
      else .ok [placeholderFor input project id now]

/-- The clock reading and the random id of the `index`-th membership that the deletion of a
task replaces. -/
structure Drawn where
  isoNow : String → Nat → Instant
  randomUUID : String → Nat → String

/-- The replacement so far: the tasks as it leaves them, the writes, and the place in the
list of assignments. -/
structure Replacing where
  tasks : Tasks LocalPart
  memberships : List (Membership LocalPart)
  index : Nat

/-- The identity and the origin of a row whose conversation would be lost: a live row that
names someone no remaining task records. -/
def lostAdmission (tasks : List LocalTask) (assignment : TaskAssignment) :
    Option (MembershipIdentity × (OriginKind × String)) :=
  if assignment.state = .failed then none
  else
    match assignmentIdentity assignment, assignmentAdmissionOrigin assignment with
    | some identity, some origin =>
      if identityHeldBy tasks identity then none else some (identity, origin)
    | _, _ => none

/-- One row of a deleted task of `project`. -/
def replaceLost (drawn : Drawn) (taskId project : String) (acc : Replacing)
    (assignment : TaskAssignment) : Except String Replacing :=
  match lostAdmission acc.tasks.rows assignment with
  | none => .ok { acc with index := acc.index + 1 }
  | some (identity, origin) =>
    (ensureTaskMembership acc.tasks.rows ⟨project, origin, identity⟩ (drawn.isoNow taskId acc.index)
      (drawn.randomUUID taskId acc.index)).map fun memberships =>
        ⟨memberships.foldl (bindMembership project) acc.tasks, acc.memberships ++ memberships,
          acc.index + 1⟩

/-- Every conversation of the removed rows that no remaining task records is bound to a
replacement. -/
def replaceLostMemberships (drawn : Drawn) (tasks : List LocalTask) (task : LocalTask) :
    Except String (List (Membership LocalPart)) :=
  (Refusals.run (replaceLost drawn task.id task.project) ⟨Table.ofList tasks, [], 0⟩
    task.rest.assignments).map Replacing.memberships

/-! ### The context of a write -/

/-- What the writes of an install take from outside the store. -/
structure LocalContext where
  linked : List String
  self : Self
  now : Minting → Int
  drawn : Drawn
  showsOnBoard : LocalTask → Bool

/-- Its writes: a row settles its completion against the status it had, and a deletion
replaces the memberships it loses. -/
def LocalContext.write (context : LocalContext) : WriteContext LocalPart where
  linked := context.linked
  self := context.self
  now := context.now
  settle := fun prior task =>
    withTaskCompletion task
      (match prior with
      | some prior => { task with status := prior.status }
      | none => task)
  lostMemberships := replaceLostMemberships context.drawn
  showsOnBoard := context.showsOnBoard

end Delegatus.LinkedBoards
