import Delegatus.LinkedTasks

/-!
# The task store of a linked board

One write of the task store: a callback gets the committed tasks and, when something is
linked, the companion rows (`task_tombstones`: tombstones of deleted tasks, one stamp
floor for each project, stubs of rows that a peer withheld); the tasks it returns are
settled, stamped (`stampLinkedRows`) and committed together with the companion.

What a write takes from outside the store is its `WriteContext`: the linked projects and
this install's identity, the clock, and the rules over the local part of a task that the
exchange never looks at.  Nothing linked (`sync` is null) is the context whose `linked` is
empty: no row is stamped then, and no deletion leaves a tombstone.

Task projects are canonical here; a write resolves an alias before it gets to these steps.
-/

namespace Delegatus.LinkedBoards

open LinkStamps

/-! ### Companion rows -/

structure TaskTombstone where
  id : String
  project : String
  gone : Stamp
  last : Option Stamp
  o : String

structure ProjectFloor where
  project : String
  floor : Stamp

structure WithheldStub where
  id : String
  project : String
  withheld : Stamp

/-- The `task_tombstones` collection: its rows by kind. -/
structure Companion where
  tombstones : Table TaskTombstone.id
  floors : Table ProjectFloor.project
  stubs : Table WithheldStub.id

/-- The collection before anything was deleted. -/
def emptyCompanion : Companion := ⟨Table.empty, Table.empty, Table.empty⟩

/-- `isTombstone(read(tombstoneKey(id)))`. -/
def Companion.isTombstone (companion : Companion) (id : String) : Bool :=
  companion.tombstones.has id

def Companion.floorOf (companion : Companion) (project : String) : Option Stamp :=
  (companion.floors.get? project).map ProjectFloor.floor

def raiseFloor (companion : Companion) (project : String) (stamp : Stamp) : Companion :=
  match companion.floorOf project with
  | some floor =>
    if floor < stamp then { companion with floors := companion.floors.set ⟨project, stamp⟩ }
    else companion
  | none => { companion with floors := companion.floors.set ⟨project, stamp⟩ }

@[simp] theorem raiseFloor_tombstones (companion : Companion) (project : String)
    (stamp : Stamp) : (raiseFloor companion project stamp).tombstones = companion.tombstones := by
  unfold raiseFloor
  split
  · split <;> rfl
  · rfl

@[simp] theorem raiseFloor_stubs (companion : Companion) (project : String) (stamp : Stamp) :
    (raiseFloor companion project stamp).stubs = companion.stubs := by
  unfold raiseFloor
  split
  · split <;> rfl
  · rfl

/-! ### The context of a write -/

/-- What a stamp is minted for; each reading of the clock is named by it. -/
inductive Minting where
  | group (id : String) (group : TaskSyncGroup)
  | gone (id : String)
  | reopen (id : String) (sent : Stamp)

/-- One membership that a deleted task leaves behind: a task that is linked to the
conversation, or a new placeholder under a random id. -/
inductive Membership (ρ : Type) where
  | upsertLinked (id : String) (added : Bool) (updatedAt : Instant) (rest : ρ)
  | placeholder (id text : String) (createdAt : Instant) (rest : ρ)

/-- Everything that a write takes from outside the store.  `settle` computes the local
part that a committed task keeps (its completion record), and throws on an undelivered
decision; `lostMemberships` resolves the memberships that a deleted task leaves; both
depend only on local parts, the clock and random ids.  `showsOnBoard` is
`taskShowsOnBoard` for a task without members. -/
structure WriteContext (ρ : Type) where
  linked : List String
  self : Self
  now : Minting → Int
  settle : Option (BoardTask ρ) → BoardTask ρ → Except String ρ
  lostMemberships : List (BoardTask ρ) → BoardTask ρ → Except String (List (Membership ρ))
  showsOnBoard : BoardTask ρ → Bool

/-- The tasks of an install, by id, in collection order. -/
abbrev Tasks (ρ : Type) := Table (@BoardTask.id ρ)

/-- What an install stores: its tasks and their companion rows. -/
structure TaskStore (ρ : Type) where
  tasks : Tasks ρ
  companion : Companion

def emptyStore (ρ : Type) : TaskStore ρ := ⟨Table.empty, emptyCompanion⟩

section Write

variable {ρ : Type} [DecidableEq ρ]

/-! ### The watermark of a project -/

/-- The larger of `mark` and the stamps of the project's tasks. -/
def newestOf (self : Self) (project : String) (mark : Option Stamp)
    (tasks : List (BoardTask ρ)) : Option Stamp :=
  tasks.foldl
    (fun mark task =>
      if task.project = project then maxStamp mark (some (newestStamp task self.pfx)) else mark)
    mark

/-- The largest stamp among a project's committed rows, the rows of the write, and its
floor. -/
def projectWatermark (self : Self) (committed tasks : List (BoardTask ρ))
    (companion : Companion) (project : String) : Option Stamp :=
  maxStamp (newestOf self project (newestOf self project none committed) tasks)
    (companion.floorOf project)

/-! ### The stamping pass -/

/-- The last stamp that this write minted for a project. -/
structure ProjectMark where
  project : String
  mark : Stamp

abbrev Marks := Table ProjectMark.project

/-- `fresh`: the next stamp of a project, above its watermark and above what this write
minted for it before.  `tasks` are the rows as the pass has them now. -/
def fresh (ctx : WriteContext ρ) (committed tasks : List (BoardTask ρ)) (companion : Companion)
    (marks : Marks) (project : String) (minting : Minting) : Marks × Stamp :=
  let mark :=
    match marks.get? project with
    | some held => some held.mark
    | none => projectWatermark ctx.self committed tasks companion project
  let stamp := nextStamp mark (ctx.now minting) ctx.self.pfx
  (marks.set ⟨project, stamp⟩, stamp)

/-- The stamp a stored row holds for a group. -/
def storedStamp (task : BoardTask ρ) (group : TaskSyncGroup) : Option Stamp :=
  task.sync.bind (fun sync => sync.s group)

/-- The pass over one row: the marks, the row's stamps so far, and `local`. -/
structure RowStamping where
  marks : Marks
  s : TaskSyncGroup → Option Stamp
  changedHere : Bool

/-- One group of the row.  A stamp that the writer set is kept; a group whose content
changed under its old stamp gets a fresh one; any other group pins the stamp it read. -/
def stampGroup (ctx : WriteContext ρ) (preserved : List (String × TaskSyncGroup))
    (committed tasks : List (BoardTask ρ)) (companion : Companion) (prior : Option (BoardTask ρ))
    (task : BoardTask ρ) (acc : RowStamping) (group : TaskSyncGroup) : RowStamping :=
  let minted := fresh ctx committed tasks companion acc.marks task.project (.group task.id group)
  let minted : RowStamping := ⟨minted.1, Function.update acc.s group (some minted.2), true⟩
  match prior with
  | none => if (acc.s group).isSome then acc else minted
  | some prior =>
    if acc.s group = storedStamp prior group ∧ (task.id, group) ∈ preserved then acc
    else if (acc.s group).isSome ∧ acc.s group ≠ storedStamp prior group then acc
    else if groupDigest prior group ≠ groupDigest task group then minted
    else
      { acc with
        s := Function.update acc.s group
          (some ((acc.s group).getD (effectiveStamp prior group ctx.self.pfx))) }

/-- `if (!task.machine) task.machine = write.self.id`. -/
def ownedHere (self : Self) (task : BoardTask ρ) : BoardTask ρ :=
  { task with machine := some ((nonEmpty task.machine).getD self.id) }

/-- One row of the pass.  `prior` is its snapshot, if it was a task of a linked project. -/
def stampRow (ctx : WriteContext ρ) (preserved : List (String × TaskSyncGroup))
    (committed tasks : List (BoardTask ρ)) (companion : Companion) (prior : Option (BoardTask ρ))
    (marks : Marks) (task : BoardTask ρ) : Marks × BoardTask ρ :=
  if task.project ∉ ctx.linked ∨ prior = some task then (marks, task)
  else
    let task := ownedHere ctx.self task
    let stamped := TASK_SYNC_GROUPS.foldl
      (stampGroup ctx preserved committed tasks companion prior task)
      ⟨marks, storedStamp task, false⟩
    let o := if stamped.changedHere then ctx.self.pfx else (task.sync.map TaskSync.o).getD ctx.self.pfx
    (stamped.marks, { task with sync := some ⟨stamped.s, o⟩ })

/-- `before.get(id)`: the snapshot holds tasks of linked projects only. -/
def snapshotOf (ctx : WriteContext ρ) (before : Tasks ρ) (id : String) : Option (BoardTask ρ) :=
  (before.get? id).filter (fun task => task.project ∈ ctx.linked)

/-- The pass over the rows: `done` is already stamped. -/
def stampRows (ctx : WriteContext ρ) (preserved : List (String × TaskSyncGroup))
    (before : Tasks ρ) (companion : Companion) :
    Marks → List (BoardTask ρ) → List (BoardTask ρ) → Marks × List (BoardTask ρ)
  | marks, done, [] => (marks, done)
  | marks, done, task :: rest =>
    let stamped := stampRow ctx preserved before.rows (done ++ task :: rest) companion
      (snapshotOf ctx before task.id) marks task
    stampRows ctx preserved before companion stamped.1 (done ++ [stamped.2]) rest

/-- The largest stamp a deleted row was stored with, or derives. -/
def lastStamp (prior : BoardTask ρ) (pfx : String) : Stamp :=
  TASK_SYNC_GROUPS.foldl
    (fun newest group =>
      match storedStamp prior group with
      | some stamp => if stamp > newest then stamp else newest
      | none => newest)
    (derivedStamp prior.updatedAt pfx)

/-- One snapshot of the pass over the deleted rows: a task of a linked project that is
gone leaves a tombstone and raises the floor of its project. -/
def buryRow (ctx : WriteContext ρ) (committed tasks : List (BoardTask ρ))
    (acc : Marks × Companion) (prior : BoardTask ρ) : Marks × Companion :=
  if prior.project ∉ ctx.linked ∨ (∃ task ∈ tasks, task.id = prior.id) ∨
      acc.2.isTombstone prior.id then acc
  else
    let last := lastStamp prior ctx.self.pfx
    let minted := fresh ctx committed tasks acc.2 acc.1 prior.project (.gone prior.id)
    let gone := minted.2
    let row : TaskTombstone :=
      ⟨prior.id, prior.project, gone, if last > gone then some last else none, ctx.self.pfx⟩
    (minted.1,
      raiseFloor { acc.2 with tombstones := acc.2.tombstones.set row } prior.project gone)

/-- `stampLinkedRows`. -/
def stampLinkedRows (ctx : WriteContext ρ) (preserved : List (String × TaskSyncGroup))
    (before : Tasks ρ) (tasks : List (BoardTask ρ)) (companion : Companion) :
    List (BoardTask ρ) × Companion :=
  let stamped := stampRows ctx preserved before companion Table.empty [] tasks
  (stamped.2,
    (before.rows.foldl (buryRow ctx before.rows stamped.2) (stamped.1, companion)).2)

/-! ### Committing a write -/

/-- What `committedRows` does to a row before it is stamped: proactive provenance stays
what it was, and the completion record is settled. -/
def settleTask (ctx : WriteContext ρ) (before : Tasks ρ) (task : BoardTask ρ) :
    Except String (BoardTask ρ) :=
  let prior := before.get? task.id
  (ctx.settle prior task).map
    (fun rest => { task with rest := rest, proactive := (prior.map BoardTask.proactive).getD false })

/-- The rows settled in order; the first row that throws fails the write. -/
def settleTasks (ctx : WriteContext ρ) (before : Tasks ρ) :
    List (BoardTask ρ) → Except String (List (BoardTask ρ))
  | [] => .ok []
  | task :: rest =>
    match settleTask ctx before task, settleTasks ctx before rest with
    | .ok task, .ok rest => .ok (task :: rest)
    | .error error, _ => .error error
    | .ok _, .error error => .error error

/-- The rows of the write, settled and stamped, with the companion rows beside them. -/
def committedRows (ctx : WriteContext ρ) (preserved : List (String × TaskSyncGroup))
    (before tasks : Tasks ρ) (companion : Companion) : Except String (TaskStore ρ) :=
  (settleTasks ctx before tasks.rows).map fun settled =>
    let stamped := stampLinkedRows ctx preserved before settled companion
    ⟨Table.ofList stamped.1, stamped.2⟩

/-- What the callback of a write returns: the tasks to write, if any, the companion rows
it put or removed, and the group stamps it asked to keep. -/
structure Mutation (ρ τ : Type) where
  tasks : Option (Tasks ρ)
  companion : Companion
  preserved : List (String × TaskSyncGroup)
  result : τ

/-- One serialized write.  A callback that throws writes nothing; one that returns no
tasks commits its companion rows alone. -/
def mutateLinkedTasks {τ : Type} (ctx : WriteContext ρ) (store : TaskStore ρ)
    (mutate : TaskStore ρ → Except String (Mutation ρ τ)) : Except String (TaskStore ρ × τ) :=
  match mutate store with
  | .error error => .error error
  | .ok outcome =>
    match outcome.tasks with
    | none => .ok (⟨store.tasks, outcome.companion⟩, outcome.result)
    | some tasks =>
      (committedRows ctx outcome.preserved store.tasks tasks outcome.companion).map
        (fun store => (store, outcome.result))

/-- A local write: its callback sees the tasks alone. -/
def mutateTasks (ctx : WriteContext ρ) (store : TaskStore ρ)
    (mutate : Tasks ρ → Except String (Option (Tasks ρ))) : Except String (TaskStore ρ × Unit) :=
  mutateLinkedTasks ctx store fun store =>
    (mutate store.tasks).map (fun tasks => ⟨tasks, store.companion, [], ()⟩)

/-- A write of one local field of one row: it pins the derived stamps before the row's
time changes, so that every group reads the stamp it read. -/
def mutateTaskLocalField (ctx : WriteContext ρ) (store : TaskStore ρ) (taskId : String)
    (change : BoardTask ρ → Option (Instant × ρ)) : TaskStore ρ :=
  match store.tasks.get? taskId with
  | none => store
  | some task =>
    match change task with
    | none => store
    | some (updatedAt, rest) =>
      let sync :=
        if task.project ∈ ctx.linked then
          some ⟨fun group => some (effectiveStamp task group ctx.self.pfx),
            (task.sync.map TaskSync.o).getD ctx.self.pfx⟩
        else task.sync
      { store with
        tasks := store.tasks.set { task with updatedAt := updatedAt, rest := rest, sync := sync } }

end Write

end Delegatus.LinkedBoards
