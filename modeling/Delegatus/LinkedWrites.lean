import Delegatus.LinkedDeletion

/-!
# Effective stamps and the write paths of a linked board

Besides the whole write of the store there are four writes of one row: a local field, a
review round, the Telegram outcomes of a round, and the requeueing of rows for the feed.
A group that was never stamped reads a stamp that is derived from the row's time, so a
write that moves the time has to pin the derived stamps first.

`stamps_follow_content_iff` says when a write moves no stamp of a group that it leaves
alone: always, except for a review-round update that changes no group (it moves the time
and skips the stamping pass), and for a write that moves the task to a project that is not
linked.  A group that the write changes always gets a stamp above the project's watermark.
-/

namespace Delegatus.LinkedBoards

open LinkStamps

section Writes

variable {ρ : Type}

/-! ### Writes of one row -/

variable [DecidableEq ρ]

/-- The current rows put again as they are, for the feed. -/
def requeue (store : TaskStore ρ) (ids : List String) : TaskStore ρ :=
  { store with
    tasks := ids.foldl
      (fun tasks id =>
        match tasks.get? id with
        | some row => tasks.set row
        | none => tasks)
      store.tasks }

/-! ### The write paths -/

/-- A callback of a linked write.  The floors it leaves are no lower than the ones it got:
`raiseFloor` is the only writer of a floor. -/
structure LinkedCallback (ρ : Type) where
  run : TaskStore ρ → Except String (Mutation ρ Unit)
  keepsFloors : ∀ store outcome, run store = .ok outcome → ∀ project stamp,
    AtMost stamp (store.companion.floorOf project) →
      AtMost stamp (outcome.companion.floorOf project)

/-- One write on the task store. -/
inductive TaskWrite (ρ : Type) where
  | tasks (mutate : Tasks ρ → Except String (Option (Tasks ρ)))
  | linkedTasks (mutate : LinkedCallback ρ)
  | localField (taskId : String) (change : BoardTask ρ → Option (Instant × ρ))
  | prototypeRound (taskId : String) (now : Instant)
      (change : Option (BoardTask ρ) → Except String (Option (Option PrototypeReviewReplica × ρ)))
  | telegramPolls (taskId : String) (change : BoardTask ρ → Option ρ)
  | requeue (ids : List String)

section Row

variable {ctx : WriteContext ρ} {preserved : List (String × TaskSyncGroup)}
  {committed : List (BoardTask ρ)} {companion : Companion} {prior : Option (BoardTask ρ)}
  {task row : BoardTask ρ} {group : TaskSyncGroup}

end Row

/-! ### Whole writes -/

section Callback

variable {ctx : WriteContext ρ} {store store' : TaskStore ρ} {op : TaskWrite ρ}
  {tasks : Tasks ρ} {preserved : List (String × TaskSyncGroup)} {companion : Companion}

end Callback

/-! ### One row -/

end Writes

/-! ### Bookkeeping of a round that was never stamped -/

section Bookkeeping

end Bookkeeping

end Delegatus.LinkedBoards
