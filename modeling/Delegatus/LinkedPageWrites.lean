import Delegatus.LinkedApply
import Delegatus.LinkedStamping
import Delegatus.PendingRows

/-!
# The writes of a page

The apply of a page at the grain of its writes: the callback of the store's write puts and removes
companion rows one by one and replaces tasks in its draft, and it may throw between any two of them.
What it wrote until then stays with the callback's session; the store takes the session's rows at its
commit alone.  Before the page every call runs the one-time repair of the board.
-/

namespace Delegatus.LinkedPageWrites

open LinkStamps
open LinkedBoards (ApplyLink ApplyOutcome BoardTask Companion Install ProjectFloor RowBudget
  TaskStore TaskSyncGroup TaskTombstone Tasks WireChecks WireGone WireRow WireStub WireTask
  WithheldStub WriteContext PageState DAILY_ROW_BUDGET admitToBoard arrivalBoard arrivedTask
  budgetUsed clockAhead committedRows deleteTask mergeHeld newestStamp utcDay)

/-! ### Sessions -/

inductive Thrown where
  | malformedRow (field : String)
  | error (message : String)

/-- The text of the exception. -/
def Thrown.message : Thrown → String
  | .malformedRow field => "malformed " ++ field
  | .error message => message

/-- One write while its callback runs: the committed rows, the draft of the tasks, and the companion
rows that wait for the commit. -/
structure Session (ρ : Type) where
  disk : TaskStore ρ
  tasks : Tasks ρ
  tombstones : PendingRows TaskTombstone.id
  floors : PendingRows ProjectFloor.project
  stubs : PendingRows WithheldStub.id
  preserved : List (String × TaskSyncGroup)
  count : Nat

section Writes

variable {ρ : Type}

namespace Session

def start (disk : TaskStore ρ) : Session ρ := ⟨disk, disk.tasks, .none, .none, .none, [], 0⟩

def readTombstone (session : Session ρ) (id : String) : Option TaskTombstone :=
  session.tombstones.read session.disk.companion.tombstones id

def readFloor (session : Session ρ) (project : String) : Option ProjectFloor :=
  session.floors.read session.disk.companion.floors project

def readStub (session : Session ρ) (id : String) : Option WithheldStub :=
  session.stubs.read session.disk.companion.stubs id

/-- The companion rows as the commit leaves them. -/
def companion (session : Session ρ) : Companion where
  tombstones := session.tombstones.commit session.disk.companion.tombstones
  floors := session.floors.commit session.disk.companion.floors
  stubs := session.stubs.commit session.disk.companion.stubs

end Session

/-- A step of the callback: where it throws, its state is what was written until then. -/
abbrev Callback (ρ α : Type) := EStateM Thrown (Session ρ) α

def putTombstone (row : TaskTombstone) : Callback ρ Unit :=
  modify fun session => { session with tombstones := session.tombstones.put row }

def putFloor (row : ProjectFloor) : Callback ρ Unit :=
  modify fun session => { session with floors := session.floors.put row }

def putStub (row : WithheldStub) : Callback ρ Unit :=
  modify fun session => { session with stubs := session.stubs.put row }

def removeStub (id : String) : Callback ρ Unit :=
  modify fun session => { session with stubs := session.stubs.remove id }

def setTasks (tasks : Tasks ρ) : Callback ρ Unit := modify fun session => { session with tasks := tasks }

def preserveStamps (stamps : List (String × TaskSyncGroup)) : Callback ρ Unit :=
  modify fun session => { session with preserved := stamps ++ session.preserved }

def countRow : Callback ρ Unit := modify fun session => { session with count := session.count + 1 }

/-! ### The rows of a page -/

def raiseFloor (project : String) (stamp : Stamp) : Callback ρ Unit := do
  match (← get).readFloor project with
  | some held => if held.floor < stamp then putFloor ⟨project, stamp⟩ else pure ()
  | none => putFloor ⟨project, stamp⟩

def dropStub (id : String) : Callback ρ Unit := do
  if ((← get).readStub id).isSome then removeStub id else pure ()

section Rows

variable [DecidableEq ρ] [Inhabited ρ]

/-- The local row of a tombstone goes. -/
def deleteHeld (ctx : WriteContext ρ) : Option (BoardTask ρ) → Callback ρ Unit
  | none => pure ()
  | some task => do
    match deleteTask ctx (← get).tasks task with
    | .ok tasks => setTasks tasks
    | .error message => throw (.error message)

def takeGone (ctx : WriteContext ρ) (link : ApplyLink) (row : WireGone) : Callback ρ Unit := do
  let held := (← get).tasks.get? row.id
  let last := (held.map fun task => newestStamp task ctx.self.pfx).filter fun last => last > row.gone
  putTombstone ⟨row.id, row.project, row.gone, last, link.pfx⟩
  raiseFloor row.project row.gone
  dropStub row.id
  deleteHeld ctx held
  countRow

def takeStub (row : WireStub) : Callback ρ Unit := do
  if ((← get).readStub row.id).any fun stub => stub.withheld = row.withheld then pure ()
  else putStub ⟨row.id, row.project, row.withheld⟩

/-- The merged row takes its place in the draft. -/
def placeMerged (ctx : WriteContext ρ) (held merged : BoardTask ρ)
    (preserved : List (String × TaskSyncGroup)) : Callback ρ Unit := do
  preserveStamps preserved
  let tasks := (← get).tasks
  let admitted := admitToBoard ctx tasks.rows (some held) merged
  if admitted = held then pure ()
  else do
    setTasks (tasks.set admitted)
    countRow

def takeLive (checks : WireChecks) (ctx : WriteContext ρ) (link : ApplyLink) (row : WireTask) :
    Callback ρ Unit := do
  dropStub row.id
  let tasks := (← get).tasks
  match tasks.get? row.id with
  | none => do
    let arrived := arrivalBoard row (arrivedTask checks ctx.self link row)
    setTasks (tasks.set (admitToBoard ctx tasks.rows none arrived))
    countRow
  | some held =>
    match mergeHeld checks ctx link tasks.rows held row with
    | none => pure ()
    | some (merged, preserved) => placeMerged ctx held merged preserved

def takeRow (checks : WireChecks) (ctx : WriteContext ρ) (link : ApplyLink) (row : WireRow) :
    Callback ρ Unit := do
  let session ← get
  -- unsharing on either side stops that project at the next call
  if row.project ∉ link.projects ∨ row.project ∉ ctx.linked then pure ()
  else if (session.tasks.get? row.id).any fun held => held.project ≠ row.project then
    throw (.malformedRow "id")
  else if (session.readTombstone row.id).isSome then pure ()
  else
    match row with
    | .gone row => takeGone ctx link row
    | .stub row => takeStub row
    | .task row => takeLive checks ctx link row

def takeRows (checks : WireChecks) (ctx : WriteContext ρ) (link : ApplyLink) :
    List WireRow → Callback ρ Unit
  | [] => pure ()
  | row :: rest => do
    takeRow checks ctx link row
    takeRows checks ctx link rest

/-! ### One write of the store -/

/-- What a write leaves in the store, and what it returns or throws. -/
abbrev Written (ρ τ : Type) := TaskStore ρ × Except Thrown τ

/-- The transaction of one page: a throw of the callback or of the commit rolls it back. -/
def mutateLinkedTasks (ctx : WriteContext ρ) (store : TaskStore ρ) (callback : Callback ρ Unit) :
    Written ρ Nat :=
  match callback (Session.start store) with
  | .error thrown session => (session.disk, .error thrown)
  | .ok _ session =>
    if session.count = 0 then (⟨session.disk.tasks, session.companion⟩, .ok 0)
    else
      match committedRows ctx session.preserved session.disk.tasks session.tasks session.companion with
      | .ok store => (store, .ok session.count)
      | .error message => (session.disk, .error (.error message))

/-! ### The repair of the board -/

/-- An install with what the repair leaves behind: the migration marker of the store, and the note of
the process that the file is done. -/
structure Board (ρ : Type) where
  install : Install ρ
  marker : Bool
  completed : Bool

/-- Automatic hides of done arrivals, which older releases left out or stored as choices. -/
def repairTask (ctx : WriteContext ρ) (task : BoardTask ρ) : BoardTask ρ :=
  if task.sync = none ∨ LinkedBoards.nonEmpty task.machine = none ∨ task.machine = some ctx.self.id ∨
      task.status ≠ .done then task
  else if task.board = none then { task with board := some .hidden, boardAutoHidden := true }
  else if task.board = some .hidden ∧ task.boardAutoHidden = false ∧ task.boardChoice = false then
    { task with boardAutoHidden := true }
  else task

omit [DecidableEq ρ] [Inhabited ρ] in
theorem repairTask_id (ctx : WriteContext ρ) (task : BoardTask ρ) :
    (repairTask ctx task).id = task.id := by
  unfold repairTask
  split_ifs <;> rfl

def repairTasks (ctx : WriteContext ρ) (tasks : Tasks ρ) : Tasks ρ :=
  tasks.mapRows (repairTask ctx) (repairTask_id ctx)

/-- `repairLinkedTasks`; `startup` is the check that this process may write the state. -/
def repairLinkedTasks (ctx : WriteContext ρ) (startup : Except String Unit) (board : Board ρ) :
    Board ρ × Except Thrown Unit :=
  if board.completed ∨ ctx.linked = [] then (board, .ok ())
  else
    match startup with
    | .error message => (board, .error (.error message))
    | .ok _ =>
      if board.marker then ({ board with completed := true }, .ok ())
      else
        let store := board.install.store
        match committedRows ctx [] store.tasks (repairTasks ctx store.tasks) store.companion with
        | .error message => (board, .error (.error message))
        | .ok store =>
          ({ install := { board.install with store := store }, marker := true, completed := true },
            .ok ())

/-- The repair has still to run. -/
def RepairPending (ctx : WriteContext ρ) (board : Board ρ) : Prop :=
  board.completed = false ∧ ctx.linked ≠ [] ∧ board.marker = false

/-! ### One page -/

/-- The page, after the repair. -/
def applyPage (checks : WireChecks) (ctx : WriteContext ρ) (link : ApplyLink) (now : Int)
    (install : Install ρ) (rows : List WireRow) : Install ρ × Except Thrown ApplyOutcome :=
  let used := budgetUsed install.budgets link.key (utcDay now)
  if rows = [] then (install, .ok ⟨0, none⟩)
  else if clockAhead now rows then (install, .ok ⟨0, some .clock⟩)
  else if used ≥ DAILY_ROW_BUDGET then (install, .ok ⟨0, some .quota⟩)
  else
    match mutateLinkedTasks ctx install.store (takeRows checks ctx link rows) with
    | (store, .error thrown) => ({ install with store := store }, .error thrown)
    | (store, .ok changed) =>
      (⟨store, install.budgets.set ⟨link.key, utcDay now, used + changed⟩⟩, .ok ⟨changed, none⟩)

def applyTaskRows (checks : WireChecks) (ctx : WriteContext ρ) (link : ApplyLink)
    (startup : Except String Unit) (now : Int) (board : Board ρ) (rows : List WireRow) :
    Board ρ × Except Thrown ApplyOutcome :=
  match repairLinkedTasks ctx startup board with
  | (board, .error thrown) => (board, .error thrown)
  | (board, .ok _) =>
    let applied := applyPage checks ctx link now board.install rows
    ({ board with install := applied.1 }, applied.2)

end Rows

end Writes

end Delegatus.LinkedPageWrites
