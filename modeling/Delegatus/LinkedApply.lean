import Delegatus.LinkedStore

/-!
# Applying a page of rows

The apply of linked boards, one function on both sides: per group the larger stamp wins
and an equal stamp keeps the local value; `machine` is taken only from the peer that the
local copy names as owner, `handover` must name the sender; a row whose id holds a
tombstone is dropped, and a tombstone deletes the local row.  A page is one write of the
task store.
-/

namespace Delegatus.LinkedBoards

open LinkStamps

structure ApplyLink where
  key : String
  install : String
  pfx : String
  projects : List String

inductive Refusal where
  | clock
  | quota
  deriving DecidableEq

structure ApplyOutcome where
  changed : Nat
  refused : Option Refusal
  deriving DecidableEq

/-- A stamp more than an hour ahead of this machine pauses the link. -/
def CLOCK_AHEAD_LIMIT_MS : Int := 3600000

/-- Rows that changed something, per link and UTC day. -/
def DAILY_ROW_BUDGET : Nat := 5000

def BOARD_TASKS_PER_PROJECT_LIMIT : Nat := 300

def UNTITLED_TASK_TEXT : String := "Untitled task"

def rowStamps : WireRow → List Stamp
  | .task row => TASK_SYNC_GROUPS.map row.s
  | .gone row => [row.gone]
  | .stub row => [row.withheld]

section Apply

variable {ρ : Type} [DecidableEq ρ] [Inhabited ρ]

/-! ### Merging one live row -/

def assignGroup (target : BoardTask ρ) (row : WireTask) : TaskSyncGroup → BoardTask ρ
  | .text =>
    { target with
      text := row.text
      details := row.details
      chosen := true
      -- a row without a replica, as an older peer sends it, leaves the held one
      prototypeReviewReplica :=
        match row.prototypeReviewReplica with
        | some replica => some replica
        | none => target.prototypeReviewReplica }
  | .status => { target with status := row.status }
  | .look => { target with color := row.color, icon := row.icon, priority := row.priority }
  | .place => { target with placement := row.placement, pos := row.pos }
  | .links => { target with workLinks := row.workLinks }
  | .machine => { target with machine := some row.machine }
  | .handover => { target with handover := row.handover }

/-- Whether the merged row, in wire form, is exactly what the sender sent. -/
def equalsSent (checks : WireChecks) (merged : BoardTask ρ) (row : WireTask) (self : Self) : Bool :=
  match encodeTask checks merged self
      ⟨true, row.prototypeReviewReplica.isSome, TASK_WIRE_VERSION⟩ with
  | .task mine =>
    TASK_SYNC_GROUPS.all
      (fun group => mine.s group = row.s group ∧ wireGroup mine group = wireGroup row group)
  | _ => false

/-- The origin of a copy: the sender, when the copy is what it sent. -/
def originOf (checks : WireChecks) (merged : BoardTask ρ) (row : WireTask) (self : Self)
    (link : ApplyLink) : String :=
  if equalsSent checks merged row self then link.pfx else self.pfx

/-- The copy of a task that this machine did not hold. -/
def arrivedTask (checks : WireChecks) (self : Self) (link : ApplyLink) (row : WireTask) :
    BoardTask ρ :=
  let bare : BoardTask ρ :=
    { id := row.id, project := row.project, status := row.status, text := row.text
      details := none, chosen := false, color := none, icon := none, priority := none
      placement := row.placement, pos := none, workLinks := none
      machine := some row.machine, handover := none
      ownReview := none, prototypeReviewReplica := none
      board := none, boardAutoHidden := false, boardChoice := false
      findingKey := none, proactive := false
      createdAt := row.createdAt, updatedAt := row.updatedAt
      sync := some ⟨fun group => some (row.s group), link.pfx⟩
      rest := default }
  let filled := (TASK_SYNC_GROUPS.filter (· ≠ .machine)).foldl
    (fun target group => assignGroup target row group) bare
  -- a machine asks only for itself
  let asked := { filled with handover := filled.handover.filter (fun install => install = link.install) }
  { asked with
    sync := some ⟨fun group => some (row.s group), originOf checks asked row self link⟩ }

/-- Whether a row fills the board preference of a copy that this machine holds. -/
def fillsBoard (self : Self) (link : ApplyLink) (held : BoardTask ρ) (row : WireTask) : Bool :=
  row.board.isSome && (held.board.isNone || held.boardAutoHidden) && !held.boardChoice &&
    held.machine.getD self.id = link.install

/-- An open task of the project holds the finding key of the copy. -/
def reopenConflict (tasks : List (BoardTask ρ)) (held : BoardTask ρ) : Bool :=
  held.findingKey.isSome &&
    tasks.any (fun task =>
      decide (task.id ≠ held.id ∧ task.project = held.project ∧ task.status ≠ .done ∧
        task.findingKey = held.findingKey))

/-- The row fills the placeholder that an earlier wire version sent for a title. -/
def restoresTitle (held : BoardTask ρ) (row : WireTask) (stamp : Stamp) : Bool :=
  row.s .text = stamp && held.text = UNTITLED_TASK_TEXT && row.text ≠ UNTITLED_TASK_TEXT &&
    held.machine = some row.machine

/-- The merge of a row into a copy, so far. -/
structure Merging (ρ : Type) where
  merged : BoardTask ρ
  s : TaskSyncGroup → Option Stamp
  won : Bool
  preserved : List (String × TaskSyncGroup)

/-- One group of the merge. -/
def mergeGroup (ctx : WriteContext ρ) (link : ApplyLink) (tasks : List (BoardTask ρ))
    (held : BoardTask ρ) (row : WireTask) (acc : Merging ρ) (group : TaskSyncGroup) : Merging ρ :=
  let stamp := effectiveStamp held group ctx.self.pfx
  let restores := decide (group = .text) && restoresTitle held row stamp
  let kept := { acc with s := Function.update acc.s group (some stamp) }
  if row.s group ≤ stamp ∧ ¬ restores then kept
  -- only the owner hands a task on, judged by the link the call came over
  else if group = .machine ∧ held.machine.getD ctx.self.id ≠ link.install then kept
  else if group = .handover ∧ row.handover.any (fun install => install ≠ link.install) then kept
  else if group = .status ∧ row.status ≠ .done ∧ reopenConflict tasks held then
    { acc with
      s := Function.update acc.s group
        (some (nextStamp (some (row.s .status)) (ctx.now (.reopen row.id (row.s .status)))
          ctx.self.pfx))
      won := true }
  else if restores then
    { merged := { acc.merged with text := row.text, chosen := true }
      s := Function.update acc.s group (some (row.s group))
      won := true
      preserved := (row.id, group) :: acc.preserved }
  else
    { acc with
      merged := assignGroup acc.merged row group
      s := Function.update acc.s group (some (row.s group))
      won := true }

/-- `row.updatedAt > merged.updatedAt`: the texts are compared. -/
def newerTime (held sent : Instant) : Instant := if held.text < sent.text then sent else held

/-- The copy with its board preference filled, where the row fills it. -/
def boardFilled (self : Self) (link : ApplyLink) (held : BoardTask ρ) (row : WireTask) :
    BoardTask ρ :=
  if fillsBoard self link held row then { held with board := row.board, boardAutoHidden := false }
  else held

/-- The merge over all the groups. -/
def mergeGroups (ctx : WriteContext ρ) (link : ApplyLink) (tasks : List (BoardTask ρ))
    (held : BoardTask ρ) (row : WireTask) : Merging ρ :=
  TASK_SYNC_GROUPS.foldl (mergeGroup ctx link tasks held row)
    ⟨boardFilled ctx.self link held row, fun _ => none, false, []⟩

/-- The merged copy under its stamps. -/
def stampMerged (checks : WireChecks) (self : Self) (link : ApplyLink) (merging : Merging ρ)
    (row : WireTask) : BoardTask ρ :=
  let timed := { merging.merged with updatedAt := newerTime merging.merged.updatedAt row.updatedAt }
  let stamped := { timed with sync := some ⟨merging.s, self.pfx⟩ }
  { stamped with sync := some ⟨merging.s, originOf checks stamped row self link⟩ }

/-- The merge of a row into the copy that this machine holds; nothing when no group wins
and no board preference is filled. -/
def mergeHeld (checks : WireChecks) (ctx : WriteContext ρ) (link : ApplyLink)
    (tasks : List (BoardTask ρ)) (held : BoardTask ρ) (row : WireTask) :
    Option (BoardTask ρ × List (String × TaskSyncGroup)) :=
  let merging := mergeGroups ctx link tasks held row
  if merging.won then some (stampMerged checks ctx.self link merging row, merging.preserved)
  else if fillsBoard ctx.self link held row then some (merging.merged, merging.preserved)
  else none

/-! ### Deleting a task -/

/-- Binds one membership of a deleted task of `project`. -/
def bindMembership (project : String) (tasks : Tasks ρ) : Membership ρ → Tasks ρ
  | .upsertLinked id added updatedAt rest =>
    tasks.modify id
      (fun task =>
        { task with
          status := if added ∧ task.status = .inbox then .assigned else task.status
          updatedAt := updatedAt
          rest := rest })
      (fun _ => rfl)
  | .placeholder id text createdAt rest =>
    tasks.set
      { id := id, project := project, status := .assigned, text := text
        details := none, chosen := false, color := none, icon := none, priority := none
        placement := .unplaced, pos := none, workLinks := none, machine := none, handover := none
        ownReview := none, prototypeReviewReplica := none
        board := none, boardAutoHidden := false, boardChoice := false
        findingKey := none, proactive := false
        createdAt := createdAt, updatedAt := createdAt, sync := none, rest := rest }

/-- Deletes a task; conversations whose only membership it held are bound elsewhere. -/
def deleteTask (ctx : WriteContext ρ) (tasks : Tasks ρ) (task : BoardTask ρ) :
    Except String (Tasks ρ) :=
  if task.proactive then
    .error "invented work retains its provenance; hide or reject it instead"
  else
    let tasks := tasks.delete task.id
    (ctx.lostMemberships tasks.rows task).map
      (fun memberships => memberships.foldl (bindMembership task.project) tasks)

/-! ### The rows of a page -/

/-- The page so far: the tasks and companion rows as the commit will leave them, the
placeholder restores, and the rows that changed something. -/
structure PageState (ρ : Type) where
  tasks : Tasks ρ
  companion : Companion
  preserved : List (String × TaskSyncGroup)
  count : Nat

def countBoardTasks (ctx : WriteContext ρ) (tasks : List (BoardTask ρ)) (project : String) : Nat :=
  tasks.countP (fun task => task.project = project && ctx.showsOnBoard task)

/-- The companion rows with a tombstone of the peer. -/
def buryFromPeer (link : ApplyLink) (companion : Companion) (row : WireGone)
    (last : Option Stamp) : Companion :=
  let tombstone : TaskTombstone := ⟨row.id, row.project, row.gone, last, link.pfx⟩
  let raised := raiseFloor
    { companion with tombstones := companion.tombstones.set tombstone } row.project row.gone
  { raised with stubs := raised.stubs.delete row.id }

theorem isTombstone_buryFromPeer (link : ApplyLink) (companion : Companion) (row : WireGone)
    (last : Option Stamp) (id : String) :
    (buryFromPeer link companion row last).isTombstone id = true ↔
      id = row.id ∨ companion.isTombstone id = true := by
  unfold buryFromPeer Companion.isTombstone
  dsimp only
  rw [raiseFloor_tombstones, Table.has_set]

/-- A tombstone of the peer: it is kept, and the local row goes. -/
def applyGone (ctx : WriteContext ρ) (link : ApplyLink) (page : PageState ρ) (row : WireGone) :
    Except String (PageState ρ) :=
  let held := page.tasks.get? row.id
  let last := (held.map (fun task => newestStamp task ctx.self.pfx)).filter (fun last => last > row.gone)
  let companion := buryFromPeer link page.companion row last
  match held with
  | none => .ok { page with companion := companion, count := page.count + 1 }
  | some task =>
    (deleteTask ctx page.tasks task).map
      (fun tasks => { page with tasks := tasks, companion := companion, count := page.count + 1 })

/-- A stub of the peer: it is kept when it is new. -/
def applyStub (page : PageState ρ) (row : WireStub) : PageState ρ :=
  let companion := page.companion
  if (companion.stubs.get? row.id).any (fun stub => stub.withheld = row.withheld) then page
  else
    { page with
      companion := { companion with stubs := companion.stubs.set ⟨row.id, row.project, row.withheld⟩ } }

/-- The board preference of a task that arrives. -/
def arrivalBoard (row : WireTask) (task : BoardTask ρ) : BoardTask ρ :=
  let board := row.board.orElse (fun _ => if row.status = .done then some .hidden else none)
  { task with
    board := board
    boardAutoHidden := task.boardAutoHidden || (row.board.isNone && board = some .hidden) }

/-- A task that would show on a full board is stored hidden. -/
def admitToBoard (ctx : WriteContext ρ) (tasks : List (BoardTask ρ)) (held : Option (BoardTask ρ))
    (merged : BoardTask ρ) : BoardTask ρ :=
  if merged.board ≠ some .hidden ∧ held.all (fun task => task.board = some .hidden) ∧
      countBoardTasks ctx tasks merged.project ≥ BOARD_TASKS_PER_PROJECT_LIMIT then
    { merged with board := some .hidden, boardAutoHidden := true }
  else merged

/-- A live row: it arrives, or merges into the copy that is held. -/
def applyLive (checks : WireChecks) (ctx : WriteContext ρ) (link : ApplyLink) (page : PageState ρ)
    (row : WireTask) : PageState ρ :=
  let page :=
    { page with companion := { page.companion with stubs := page.companion.stubs.delete row.id } }
  match page.tasks.get? row.id with
  | none =>
    let arrived := arrivalBoard row (arrivedTask checks ctx.self link row)
    let admitted := admitToBoard ctx page.tasks.rows none arrived
    { page with tasks := page.tasks.set admitted, count := page.count + 1 }
  | some held =>
    match mergeHeld checks ctx link page.tasks.rows held row with
    | none => page
    | some (merged, preserved) =>
      let admitted := admitToBoard ctx page.tasks.rows (some held) merged
      let page := { page with preserved := preserved ++ page.preserved }
      if admitted = held then page
      else { page with tasks := page.tasks.set admitted, count := page.count + 1 }

/-- One row of the page. -/
def applyRow (checks : WireChecks) (ctx : WriteContext ρ) (link : ApplyLink) (page : PageState ρ)
    (row : WireRow) : Except String (PageState ρ) :=
  -- unsharing on either side stops that project at the next call
  if row.project ∉ link.projects ∨ row.project ∉ ctx.linked then .ok page
  else if (page.tasks.get? row.id).any (fun held => held.project ≠ row.project) then
    .error "malformed id"
  else if page.companion.isTombstone row.id then .ok page
  else
    match row with
    | .gone row => applyGone ctx link page row
    | .stub row => .ok (applyStub page row)
    | .task row => .ok (applyLive checks ctx link page row)

def applyRows (checks : WireChecks) (ctx : WriteContext ρ) (link : ApplyLink) :
    PageState ρ → List WireRow → Except String (PageState ρ)
  | page, [] => .ok page
  | page, row :: rest =>
    match applyRow checks ctx link page row with
    | .ok page => applyRows checks ctx link page rest
    | .error error => .error error

/-- The page as the callback of its write. -/
def applyPage (checks : WireChecks) (ctx : WriteContext ρ) (link : ApplyLink) (rows : List WireRow)
    (store : TaskStore ρ) : Except String (Mutation ρ Nat) :=
  (applyRows checks ctx link ⟨store.tasks, store.companion, [], 0⟩ rows).map fun page =>
    ⟨if page.count = 0 then none else some page.tasks, page.companion, page.preserved, page.count⟩

/-! ### One page -/

structure RowBudget where
  key : String
  day : Int
  rows : Nat

/-- The store of an install and the row budgets of its process. -/
structure Install (ρ : Type) where
  store : TaskStore ρ
  budgets : Table RowBudget.key

/-- The UTC day of an instant. -/
def utcDay (now : Int) : Int := now / 86400000

/-- A stamp of the page is too far ahead of this machine. -/
def clockAhead (now : Int) (rows : List WireRow) : Bool :=
  rows.any (fun row => (rowStamps row).any (fun stamp => (stamp.ms : Int) > now + CLOCK_AHEAD_LIMIT_MS))

def budgetUsed (budgets : Table RowBudget.key) (key : String) (day : Int) : Nat :=
  match budgets.get? key with
  | some held => if held.day = day then held.rows else 0
  | none => 0

/-- Applies one page in one write of the store. -/
def applyTaskRows (checks : WireChecks) (ctx : WriteContext ρ) (link : ApplyLink) (now : Int)
    (install : Install ρ) (rows : List WireRow) : Except String (Install ρ × ApplyOutcome) :=
  if rows = [] then .ok (install, ⟨0, none⟩)
  else if clockAhead now rows then .ok (install, ⟨0, some .clock⟩)
  else if budgetUsed install.budgets link.key (utcDay now) ≥ DAILY_ROW_BUDGET then
    .ok (install, ⟨0, some .quota⟩)
  else
    (mutateLinkedTasks ctx install.store (applyPage checks ctx link rows)).map fun written =>
      (⟨written.1, install.budgets.set
          ⟨link.key, utcDay now, budgetUsed install.budgets link.key (utcDay now) + written.2⟩⟩,
        ⟨written.2, none⟩)

end Apply

end Delegatus.LinkedBoards
