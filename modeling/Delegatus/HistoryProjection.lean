import Delegatus.RowGroups
import Delegatus.Runs

/-!
# The history projection of the state store

Triggers on `state_rows` queue the identities of changed pipelines and flows in `history_pending`.  A
reader captures queued identities and projects one in each transaction: `projectOne` replaces the
rows of the identity in the `history_` tables by what its stored row projects to, and changes the
role counters of the projects by signed differences.  A row whose compact input and heading are the
same is left as it is.

A stored value is what its JSON decodes to: a pipeline or a flow that the validator of its
collection accepts, with the fields that the projection reads, or a rejected record.
-/

namespace Delegatus.History

open RowGroups

/-! ### Stored rows -/

inductive Collection
  | pipelines
  | pipelinesArchive
  | flows
  | other (name : String)
deriving DecidableEq

/-- The identity of a row of `state_rows`. -/
structure Ref where
  collection : Collection
  rowKey : String
deriving DecidableEq

/-- The condition of the triggers. -/
def tracked (ref : Ref) : Bool :=
  match ref.collection with
  | .pipelines | .pipelinesArchive | .flows => true
  | .other _ => false

structure Attempt where
  n : ℕ
  state : String
  historical : Option Bool
  conversationId : Option String
  agentPath : Option String
  paneId : Option String
  startedAt : Option String
  /-- `effectiveRole.roleId`. -/
  role : Option String
  /-- The JSON text of the wait. -/
  providerWait : Option String
deriving DecidableEq

structure Run where
  stageId : String
  attempts : List Attempt
deriving DecidableEq

structure Stage where
  id : String
  /-- `role.roleId`. -/
  role : Option String
deriving DecidableEq

structure Pipeline where
  project : String
  state : String
  closedAt : Option String
  stages : List Stage
  runs : List Run
deriving DecidableEq

structure Round where
  reviewerPath : Option String
  reviewerConversationId : Option String
  reviewerPid : Option Int
  reviewerIdentity : Option String
deriving DecidableEq

structure Flow where
  project : String
  state : Option String
  reviewerMode : Option String
  rounds : List Round
deriving DecidableEq

inductive Value
  | pipeline (pipeline : Pipeline)
  | flow (flow : Flow)
  /-- Malformed JSON, or a record that its validator refuses. -/
  | rejected
deriving DecidableEq

structure StoredRow where
  rowOrder : Int
  value : Value
deriving DecidableEq

/-! ### Compact inputs -/

inductive Input
  | pipeline (closedAt : Option String) (roles : List Stage) (runs : List Run)
  | flow (reviewerMode : Option String) (rounds : List Round)
deriving DecidableEq

structure InputRow where
  ref : Ref
  rowOrder : Int
  project : Option String
  state : Option String
  input : Input
deriving DecidableEq

structure RunRow where
  ref : Ref
  run : ℕ
  role : String

structure AttemptRow where
  ref : Ref
  run : ℕ
  attempt : ℕ
  stageId : String
  n : ℕ
  state : String
  historical : Option Bool
  conversationId : Option String
  agentPath : Option String
  paneId : Option String
  startedAt : Option String
  startedMs : Option Int
  role : Option String
  providerWait : Option String

structure RoundRow where
  rowKey : String
  round : ℕ
  reviewerPath : Option String
  reviewerConversationId : Option String
  reviewerPid : Int
  reviewerIdentity : Option String

/-- The row of `history_inputs` that a stored row asks for, if it is an accepted record. -/
def inputOf (ref : Ref) (stored : StoredRow) : Option InputRow :=
  match ref.collection, stored.value with
  | .flows, .flow flow =>
    some ⟨ref, stored.rowOrder, some flow.project, flow.state, .flow flow.reviewerMode flow.rounds⟩
  | .flows, _ => none
  | _, .pipeline pipeline =>
    some ⟨ref, stored.rowOrder, some pipeline.project, some pipeline.state,
      .pipeline pipeline.closedAt pipeline.stages pipeline.runs⟩
  | _, _ => none

/-- The role of a stage; `unassigned` when it has none. -/
def roleOf (roles : List Stage) (stageId : String) : String :=
  ((roles.find? fun item => item.id = stageId).bind Stage.role).getD "unassigned"

def runRows (ref : Ref) : Input → List RunRow
  | .pipeline _ roles runs => runs.mapIdx fun index run => ⟨ref, index, roleOf roles run.stageId⟩
  | .flow _ _ => []

variable (dateParse : String → Option Int)

def attemptRow (ref : Ref) (run : ℕ) (stageId : String) (index : ℕ) (attempt : Attempt) : AttemptRow :=
  ⟨ref, run, index, stageId, attempt.n, attempt.state, attempt.historical, attempt.conversationId,
    attempt.agentPath, attempt.paneId, attempt.startedAt, dateParse (attempt.startedAt.getD ""),
    attempt.role, attempt.providerWait⟩

/-- `startedMs` is the time that the last loop of `projectOne` writes. -/
def attemptRows (ref : Ref) : Input → List AttemptRow
  | .pipeline _ _ runs =>
    (runs.mapIdx fun index run =>
      run.attempts.mapIdx fun attempt value => attemptRow dateParse ref index run.stageId attempt value).flatten
  | .flow _ _ => []

/-- The rounds of a headless reviewer that has a process. -/
def roundRows (rowKey : String) : Input → List RoundRow
  | .flow reviewerMode rounds =>
    if reviewerMode = some "headless" then
      (rounds.mapIdx fun index round => round.reviewerPid.bind fun pid =>
        if 0 < pid then
          some ⟨rowKey, index, round.reviewerPath, round.reviewerConversationId, pid, round.reviewerIdentity⟩
        else none).reduceOption
    else []
  | .pipeline _ _ _ => []

/-! ### The database -/

/-- The counters by which readers notice a change; no row depends on them. -/
structure Revisions where
  /-- `history_meta`. -/
  revision : ℕ
  /-- `history_flow_meta`. -/
  flowRevision : ℕ
  flowChanges : List (ℕ × String)
  /-- `history_count_meta`. -/
  countRevision : ℕ
  projects : Entries String ℕ
  countProjects : Entries String ℕ

structure Db where
  stateRows : Entries Ref StoredRow
  pending : List Ref
  inputs : List InputRow
  runs : List RunRow
  attempts : List AttemptRow
  rounds : List RoundRow
  countRoles : Entries (String × String) Int
  revisions : Revisions

/-- `installHistoryProjection`: the identities of all tracked rows are queued. -/
def installHistoryProjection (stateRows : Entries Ref StoredRow) : Db where
  stateRows := stateRows
  pending := stateRows.keys.filter tracked
  inputs := []
  runs := []
  attempts := []
  rounds := []
  countRoles := Table.empty
  revisions := ⟨0, 0, [], 0, Table.empty, Table.empty⟩

/-- The `INSERT` of the triggers. -/
def enqueue (db : Db) (ref : Ref) : Db :=
  if tracked ref && !decide (ref ∈ db.pending) then { db with pending := db.pending ++ [ref] } else db

/-! ### Count signatures -/

/-- The roles of the runs, and the role and time of each attempt. -/
structure CountSignature where
  roles : List String
  attempts : List (String × Option String)
deriving DecidableEq

/-- `countSignature`: what the tables say. -/
def countSignature (db : Db) (ref : Ref) : CountSignature where
  roles := (group RunRow.ref db.runs ref).map RunRow.role
  attempts := (group AttemptRow.ref db.attempts ref).filterMap fun attempt =>
    ((group RunRow.ref db.runs ref).find? fun run => run.run = attempt.run).map fun run =>
      (attempt.role.getD run.role, attempt.startedAt)

/-- `countSignatureFromInput`: what the compact input says. -/
def countSignatureFromInput : Input → CountSignature
  | .pipeline _ roles runs => {
      roles := runs.map fun run => roleOf roles run.stageId
      attempts := runs.flatMap fun run => run.attempts.map fun attempt =>
        (attempt.role.getD (roleOf roles run.stageId), attempt.startedAt) }
  | .flow _ _ => ⟨[], []⟩

structure CountUpdate where
  oldProject : Option String
  newProject : Option String
  oldSignature : CountSignature
  newSignature : CountSignature

/-! ### One projection -/

/-- The counters after the roles of a project changed by `amount` for each run. -/
def countRun (counts : Entries (String × String) Int) (project : Option String) (roles : List String)
    (amount : Int) : Entries (String × String) Int :=
  match project with
  | none => counts
  | some project =>
    (deltas roles amount).rows.foldl (fun counts row => add counts (project, row.1) row.2) counts

def isPipelineInput (project : String) (row : InputRow) : Bool :=
  row.ref.collection ≠ .flows && row.project = some project

def forgetEmptyProjects (inputs : List InputRow) (revisions : Revisions) (projects : List String) :
    Revisions :=
  projects.foldl (fun revisions project =>
    if inputs.any (isPipelineInput project) then revisions
    else { revisions with projects := revisions.projects.delete project,
                          countProjects := revisions.countProjects.delete project }) revisions

/-- The revisions that a changed projection advances. -/
def advance (old : Revisions) (ref : Ref) (projects : List String) (countChanged : Bool) : Revisions :=
  let revisions := { old with revision := old.revision + 1 }
  let revisions :=
    if ref.collection = .flows then
      { revisions with
        flowRevision := old.flowRevision + 1,
        flowChanges := (old.flowChanges ++ [(old.flowRevision + 1, ref.rowKey)]).filter fun change =>
          old.flowRevision + 1 ≤ change.1 + 4096 }
    else revisions
  let revisions :=
    if countChanged then { revisions with countRevision := revisions.countRevision + 1 } else revisions
  projects.foldl (fun revisions project =>
    let revisions :=
      { revisions with projects := revisions.projects.set (project, revisions.revision) }
    if countChanged then
      { revisions with
        countProjects := revisions.countProjects.set (project, revisions.countRevision) }
    else revisions) revisions

/-- The counters of `advance`, before the entries of the projects are set. -/
def raised (old : Revisions) (ref : Ref) (countChanged : Bool) : Revisions :=
  let revisions := { old with revision := old.revision + 1 }
  let revisions :=
    if ref.collection = .flows then
      { revisions with
        flowRevision := old.flowRevision + 1,
        flowChanges := (old.flowChanges ++ [(old.flowRevision + 1, ref.rowKey)]).filter fun change =>
          old.flowRevision + 1 ≤ change.1 + 4096 }
    else revisions
  if countChanged then { revisions with countRevision := revisions.countRevision + 1 } else revisions

/-- The entries of one project. -/
def setRevision (countChanged : Bool) (revisions : Revisions) (project : String) : Revisions :=
  let revisions := { revisions with projects := revisions.projects.set (project, revisions.revision) }
  if countChanged then
    { revisions with countProjects := revisions.countProjects.set (project, revisions.countRevision) }
  else revisions

theorem advance_eq (old : Revisions) (ref : Ref) (projects : List String) (countChanged : Bool) :
    advance old ref projects countChanged =
      projects.foldl (setRevision countChanged) (raised old ref countChanged) := rfl

/-- `[...new Set([before?.project, row?.project].filter(value => typeof value === "string"))]`. -/
def projectsOf (ref : Ref) (before row : Option InputRow) : List String :=
  if ref.collection = .flows then []
  else [before.bind InputRow.project, row.bind InputRow.project].reduceOption.dedup

/-- The rows of the identity are replaced by those of the new input. -/
def replaceRows (db : Db) (ref : Ref) (row : Option InputRow) : Db :=
  { db with
    runs := regroup RunRow.ref db.runs ref (row.elim [] fun row => runRows ref row.input)
    attempts := regroup AttemptRow.ref db.attempts ref
      (row.elim [] fun row => attemptRows dateParse ref row.input)
    inputs := regroup InputRow.ref db.inputs ref row.toList
    rounds :=
      if ref.collection = .flows then
        regroup RoundRow.rowKey db.rounds ref.rowKey (row.elim [] fun row => roundRows ref.rowKey row.input)
      else db.rounds }

/-- `projectOne`: the rows of one identity, the counters and the revisions. -/
def projectOne (db : Db) (ref : Ref) : Db × Option CountUpdate :=
  let row := (db.stateRows.at? ref).bind (inputOf ref)
  let oldCountSignature := if ref.collection = .flows then ⟨[], []⟩ else countSignature db ref
  let newCountSignature : Option CountSignature :=
    if ref.collection = .flows then some ⟨[], []⟩ else row.map fun row => countSignatureFromInput row.input
  let before := (group InputRow.ref db.inputs ref).head?
  if before.isSome && decide (before = row) then (db, none)
  else
    let projects := projectsOf ref before row
    let beforeProject := before.bind InputRow.project
    let rowProject := row.bind InputRow.project
    let countChanged := decide (ref.collection ≠ .flows) &&
      (decide (beforeProject ≠ rowProject) || decide (some oldCountSignature ≠ newCountSignature))
    let counts :=
      if countChanged then
        countRun (countRun db.countRoles beforeProject oldCountSignature.roles (-1)) rowProject
          (newCountSignature.elim [] CountSignature.roles) 1
      else db.countRoles
    let replaced := replaceRows dateParse db ref row
    let db := { replaced with
      countRoles := counts,
      revisions := forgetEmptyProjects replaced.inputs
        (advance db.revisions ref projects countChanged) projects }
    (db, if countChanged then
      some ⟨beforeProject, rowProject, oldCountSignature, newCountSignature.getD ⟨[], []⟩⟩ else none)

/-! ### Writers and readers -/

structure State (ρ : Type*) where
  db : Db
  /-- The captured identities that a reader has yet to project. -/
  batch : ρ → List Ref

/-- No reader has captured anything. -/
def initial {ρ : Type*} (stateRows : Entries Ref StoredRow) : State ρ where
  db := installHistoryProjection stateRows
  batch _ := []

inductive Event (ρ : Type*)
  | insert (ref : Ref) (row : StoredRow)
  /-- An `UPDATE`, which may change the identity of the row. -/
  | update (old new : Ref) (row : StoredRow)
  | delete (ref : Ref)
  /-- A reader captures what its `SELECT` of queued identities answers. -/
  | capture (reader : ρ) (batch : List Ref)
  /-- A reader's transaction for the next identity of its batch. -/
  | project (reader : ρ)

variable {ρ : Type*} [DecidableEq ρ]

/-- The answer is whether the statement was carried out. -/
def step (s : State ρ) : Event ρ → State ρ × Bool
  | .insert ref row =>
    if s.db.stateRows.has ref then (s, false)
    else ({ s with db := enqueue { s.db with stateRows := s.db.stateRows.set (ref, row) } ref }, true)
  | .update old new row =>
    if !s.db.stateRows.has old || (decide (new ≠ old) && s.db.stateRows.has new) then (s, false)
    else
      ({ s with db := enqueue (enqueue
          { s.db with stateRows := (s.db.stateRows.delete old).set (new, row) } old) new }, true)
  | .delete ref =>
    if s.db.stateRows.has ref then
      ({ s with db := enqueue { s.db with stateRows := s.db.stateRows.delete ref } ref }, true)
    else (s, false)
  | .capture reader batch =>
    if batch.all (· ∈ s.db.pending) then
      ({ s with batch := Function.update s.batch reader batch }, true)
    else (s, false)
  | .project reader =>
    match s.batch reader with
    | [] => (s, false)
    | ref :: rest =>
      -- A peer reader may have projected the identity after the capture.
      if ref ∈ s.db.pending then
        let db := (projectOne dateParse s.db ref).1
        ({ db := { db with pending := db.pending.filter (· ≠ ref) },
           batch := Function.update s.batch reader rest }, true)
      else ({ s with batch := Function.update s.batch reader rest }, true)

end Delegatus.History
