import Delegatus.LinkedDeletion
import Delegatus.StampedCopies

/-!
# Two installs that share projects

The state of an exchange is both installs and every live row that either sent.  A step is
a call on one install, with rows of the other among those of a page, or the encoding of a
task for the peer at the same wire version.  Rows can be applied late, again or never,
whatever was shared in between: `linked` is an input of every write.

`copiesOf` reads the state as copies under authored stamps: every task and every sent row
gives each shared group a register, its wire value under its stamp.
-/

namespace Delegatus.LinkedBoards

open LinkStamps LastWriter StampedCopies

/-! ### State and steps -/

inductive Side where
  | near
  | far
  deriving DecidableEq

def Side.other : Side → Side
  | .near => .far
  | .far => .near

/-- Both installs and the live rows each has sent. -/
structure Exchange (ρ : Type) where
  installs : Side → Install ρ
  sent : Side → List WireTask

/-- What a peer at the same wire version gets. -/
def sameVersion : EncodeOptions := ⟨true, true, TASK_WIRE_VERSION⟩

inductive ExchangeOp (ρ : Type) where
  | call (side : Side) (op : BoardOp ρ)
  | send (side : Side) (id : String)

section Steps

variable {ρ : Type}

/-- The row that leaves `side` for a task; none where it is absent or withheld. -/
def encodedRow (checks : WireChecks) (own : Self) (tasks : Tasks ρ) (id : String) :
    Option WireTask :=
  match tasks.get? id with
  | none => none
  | some task =>
    match encodeTask checks task own sameVersion with
    | .task row => some row
    | _ => none

/-- The groups that both installs agree on. -/
abbrev SharedGroup : Type := { group : TaskSyncGroup // group ∈ sharedGroups }

/-- A group's value of a task in wire form, before the row is cut to its size. -/
def wireValue (own : Self) (task : BoardTask ρ) (group : TaskSyncGroup) : GroupContent :=
  wireGroup (fullRow task own sameVersion) group

def taskRegisters (own : Self) (task : BoardTask ρ) (group : SharedGroup) :
    Register Stamp GroupContent :=
  ⟨effectiveStamp task group own.pfx, wireValue own task group⟩

def rowRegisters (row : WireTask) (group : SharedGroup) : Register Stamp GroupContent :=
  ⟨row.s group, wireGroup row group⟩

/-- The side whose prefix a stamp bears. -/
def authorOf (selves : Side → Self) (stamp : Stamp) : Option Side :=
  if stamp.pfx = (selves .near).pfx then some .near
  else if stamp.pfx = (selves .far).pfx then some .far
  else none

/-- The exchange as copies under authored stamps. -/
def copiesOf (selves : Side → Self) (state : Exchange ρ) :
    Copies Side String SharedGroup Stamp GroupContent where
  held side id := ((state.installs side).store.tasks.get? id).map (taskRegisters (selves side))
  sent side id item := ∃ row ∈ state.sent side, row.id = id ∧ item = rowRegisters row
  buried side id := (state.installs side).store.companion.isTombstone id = true

/-- The row goes out as the task is: no review history is cut to fit it. -/
def SendsWhole (checks : WireChecks) (own : Self) (tasks : Tasks ρ) (id : String) : Prop :=
  ∀ task, tasks.get? id = some task → encodedRow checks own tasks id ≠ none →
    prototypeReviewReplica task = none ∨
      checks.rowBytes (fullRow task own sameVersion) ≤ MAX_WIRE_ROW_BYTES

end Steps

end Delegatus.LinkedBoards
