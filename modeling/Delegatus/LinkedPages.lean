import Delegatus.LinkedEdits
import Delegatus.LinkedMerge

/-!
# Pages in an exchange

A page that an install applies moves each of its copies as a site may: a group keeps its
register, takes that of a sent row, or gets a stamp of the install's own.  Two things can
break this.  A row can win the text group where the copy then shows another review than
the row's (`TextsFit` excludes it); and a deletion row can bind a lost conversation to a
task whose status a row of the same page set, which changes the status under the row's
stamp (`RebindsApart`).
-/

namespace Delegatus.LinkedBoards

open LinkStamps LastWriter StampedCopies

section Pages

variable {ρ : Type}

/-! ### What a page is given -/

/-- A live row of the page names the task. -/
def Named (rows : List WireRow) (id : String) : Prop :=
  ∃ live, .task live ∈ rows ∧ live.id = id

/-- No deletion row of the page binds a conversation to a task that the page also brings. -/
def RebindsApart (ctx : WriteContext ρ) (rows : List WireRow) : Prop :=
  ∀ tasks task memberships, ctx.lostMemberships tasks task = .ok memberships →
    ∀ id added updatedAt rest, Membership.upsertLinked id added updatedAt rest ∈ memberships →
      ¬ Named rows id

/-- Where the row wins the text group, the merged copy shows the row's review. -/
def TextFits (ctx : WriteContext ρ) (link : ApplyLink) (page : PageState ρ) (row : WireTask) : Prop :=
  row.project ∈ link.projects → row.project ∈ ctx.linked →
    ∀ held, page.tasks.get? row.id = some held → heldStamp ctx held .text < row.s .text →
      prototypeReviewReplica (assignGroup held row .text) = row.prototypeReviewReplica

def TextsFit [DecidableEq ρ] [Inhabited ρ] (checks : WireChecks) (ctx : WriteContext ρ)
    (link : ApplyLink) : PageState ρ → List WireRow → Prop
  | _, [] => True
  | page, row :: rest =>
    (∀ live, row = .task live → TextFits ctx link page live) ∧
      ∀ next, applyRow checks ctx link page row = .ok next → TextsFit checks ctx link next rest

/-! ### Tasks of a page -/

def textGroup : SharedGroup := ⟨.text, by simp [sharedGroups]⟩

/-- The register of a group, beside the copies before the page. -/
def PartOf (selves : Side → Self) (state : Exchange ρ) (side : Side) (task : BoardTask ρ)
    (group : SharedGroup) : Prop :=
  match (state.installs side).store.tasks.get? task.id with
  | some prior =>
    PartMove (authorOf selves) (copiesOf selves state) side task.id group
      (taskRegisters (selves side) prior group) (taskRegisters (selves side) task group)
  | none =>
    (∃ other row, (copiesOf selves state).sent other task.id row ∧
        row group = taskRegisters (selves side) task group) ∨
      authorOf selves (taskRegisters (selves side) task group).stamp = some side

/-- A task as the live rows of the page so far left it. -/
structure Carried (selves : Side → Self) (state : Exchange ρ) (side : Side)
    (task : BoardTask ρ) : Prop where
  tracks : ∀ group, Tracks (selves side).pfx (state.installs side).store.tasks task group
  parts : ∀ group, PartOf selves state side task group
  text : Carrier (copiesOf selves state) task.id textGroup
    (taskRegisters (selves side) task textGroup)

end Pages

end Delegatus.LinkedBoards
