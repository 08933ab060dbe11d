import Delegatus.LinkedExchange

/-!
# Local writes in an exchange

A local write is any callback that leaves the stamps of the tasks it was given alone.  On a
project that is shared, a group whose content changed gets a stamp above everything the
project holds, and a deleted task leaves a tombstone.  On a project that is not shared the
pass skips the row: the content can change under its old stamp, and a deletion leaves no
trace.  `KeepsCrossed` is what such a write must spare for the copies to stay in step.
-/

namespace Delegatus.LinkedBoards

open LinkStamps LastWriter StampedCopies

section Edits

variable {ρ : Type}

/-! ### What the runs are -/

/-- A row of the task was sent, or the other install holds it. -/
def Crossed (state : Exchange ρ) (side : Side) (id : String) : Prop :=
  (∃ sender, ∃ row ∈ state.sent sender, row.id = id) ∨
    ∃ other, other ≠ side ∧ (state.installs other).store.tasks.has id = true

/-- The write keeps every task of an unshared project that crossed, and gives each of its
groups either the value it had, under no lower stamp, or a higher stamp. -/
def KeepsCrossed (own : Self) (state : Exchange ρ) (side : Side) (linked : List String)
    (before tasks : Tasks ρ) : Prop :=
  ∀ prior ∈ before.rows, prior.project ∉ linked → Crossed state side prior.id →
    ∃ task, tasks.get? prior.id = some task ∧ ∀ group ∈ sharedGroups,
      (wireValue own task group = wireValue own prior group ∧
          effectiveStamp prior group own.pfx ≤ effectiveStamp task group own.pfx) ∨
        effectiveStamp prior group own.pfx < effectiveStamp task group own.pfx

/-! ### Rows of a committed write -/

variable [DecidableEq ρ] [Inhabited ρ]

/-- The write of a local field does not turn back the time of a crossed task of an
unshared project. -/
def KeepsTime (own : Self) (state : Exchange ρ) (side : Side) (linked : List String)
    (before : Tasks ρ) (taskId : String) (change : BoardTask ρ → Option (Instant × ρ)) : Prop :=
  ∀ task updatedAt rest, before.get? taskId = some task → change task = some (updatedAt, rest) →
    task.project ∉ linked → Crossed state side taskId →
      derivedStamp task.updatedAt own.pfx ≤ derivedStamp updatedAt own.pfx

end Edits

end Delegatus.LinkedBoards
