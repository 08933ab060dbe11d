import Delegatus.MergeDecisions
import Delegatus.Refusals
import Mathlib.Logic.Function.Basic

/-!
# Recovery after a merge that turned main red

`recoverPostMerge` watches one merged pull request.  Its runs are steps between awaits: a run reads the
lane once, at its start, and later only in `resolveRecovery` and after it reserved the recovery.  All
else it does to the lane goes through `mutate`, which changes the stored record atomically.
Runs of one or several processes take their steps in any order, and each may stop anywhere.

A phase names the call that a run awaits, with the local variables that are still read.  The answers
of GitHub and the clock are part of the call; `World` is what outlives a run: the stored merge record,
the revert mutations that were sent, the pull requests that GitHub made of them, and those that are
closed.
-/

namespace Delegatus.PostMerge

open AutoMerge Refusals

def RED_MAIN_LIMIT_MS : Int := 60 * 60000

/-! ### The record -/

structure Failure where
  name : String
  excerpt : String
deriving DecidableEq

/-- Times are milliseconds; the source keeps them as ISO strings. -/
structure MergeRecovery where
  firstRedAt : Int
  failures : List Failure
  fixPipelineId : Option String
  resolvedAt : Option Int
  revertPr : Option ℕ
  revertSubmittedAt : Option Int
deriving DecidableEq

structure Merge where
  repository : String
  prNumber : ℕ
  mergeCommit : Option String
  nextReadAt : Option Int
  recovery : Option MergeRecovery
  postMergeVerifiedAt : Option Int
  postMergeWatch : Bool
deriving DecidableEq

/-- What the digest of `keyOf` is taken of. -/
structure Key where
  repository : String
  mergeCommit : Option String
deriving DecidableEq

def keyOf (merge : Merge) : Key := ⟨merge.repository, merge.mergeCommit⟩

/-! ### Checks of a commit -/

structure CommitCheck extends ReadCheck where
  excerpt : Option String
  failedAt : Option Int
deriving DecidableEq

structure CommitChecks where
  required : List String
  checks : List CommitCheck
deriving DecidableEq

def CommitChecks.named (view : CommitChecks) (name : String) : List CommitCheck :=
  view.checks.filter fun check => check.name = name

def green (view : CommitChecks) : Bool :=
  !view.required.isEmpty && view.required.all fun name =>
    !(view.named name).isEmpty && (view.named name).all fun check => check.verdict = .green

/-- The required checks that failed at the merge and were green before it. -/
def introduced (landed parent : CommitChecks) : List CommitCheck :=
  landed.checks.filter fun check => decide (check.name ∈ landed.required) && check.verdict = .red &&
    (parent.named check.name).any (fun previous => previous.verdict = .green) &&
    !(parent.named check.name).any fun previous => previous.verdict ≠ .green

def settled (landed : CommitChecks) : Bool :=
  !landed.required.isEmpty && landed.required.all fun name =>
    !(landed.named name).isEmpty && (landed.named name).all fun check => check.verdict ≠ .pending

def inherited (landed parent : CommitChecks) : Bool :=
  (landed.checks.filter fun check => decide (check.name ∈ landed.required) && check.verdict = .red).all
    fun check => (parent.named check.name).any fun previous => previous.verdict = .red

/-- The earliest time of a failure, of those that are not in the future. -/
def firstRedOf (now : Int) (failed : List CommitCheck) : Option Int :=
  ((failed.filterMap CommitCheck.failedAt).filter fun time => time ≤ now).min?

/-! ### Runs -/

inductive Phase
  | idle
  /-- The `mutate` that admits the run. -/
  | admitting (source : Merge)
  /-- `ports.resolveMergeCommit`. -/
  | receipt (source : Merge)
  | recordReceipt (source : Merge) (sha : String)
  | claiming (source : Merge)
  /-- `ports.read(lane, "main")`. -/
  | readMain (source : Merge)
  | readLanded (source : Merge)
  | verifying (source : Merge)
  | readParent (source : Merge) (landed : CommitChecks)
  | unwatching
  | reserving (source : Merge) (reservation : MergeRecovery)
  /-- `ports.loadPipelines()` after the reservation. -/
  | rereading (source : Merge)
  /-- `ports.create` of the fix pipeline. -/
  | creating (source : Merge) (recovery : MergeRecovery)
  | recordFix (source : Merge) (recovery : MergeRecovery) (id : String)
  /-- The clock, before the revert. -/
  | limiting (source : Merge) (recovery : MergeRecovery)
  /-- "Check current main again immediately before the write." -/
  | readAgain (source : Merge) (recovery : MergeRecovery)
  /-- `openRevertPr`: the list of the pull requests with the marker. -/
  | listing (current : Merge) (recovery : MergeRecovery) (reconcileOnly : Bool)
  /-- `openRevertPr`: the merged pull request. -/
  | original (current : Merge) (recovery : MergeRecovery)
  /-- `openRevertPr`: the `mutate` of `claim`. -/
  | claim (current : Merge) (recovery : MergeRecovery)
  /-- `openRevertPr`: the mutation leaves. -/
  | writing (current : Merge) (recovery : MergeRecovery)
  /-- `openRevertPr`: the answer of the mutation. -/
  | responding (current : Merge)
  | recordPr (number : ℕ)
  /-- `resolveRecovery`: the list of the pull requests with the marker. -/
  | reconciling (key : Key)
  | recordReconciled (number : ℕ)
  /-- `ports.closeRevert`. -/
  | closing (number : ℕ)
  /-- The `mutate` that sets `resolvedAt`; `revertPr` is the number that the run holds. -/
  | resolving (revertPr : Option ℕ)
  | done
deriving DecidableEq

structure World where
  merge : Merge
  /-- The revert mutations that were sent. -/
  sent : List Key
  /-- Those of them that GitHub has not carried out. -/
  pending : List Key
  /-- The pull requests that GitHub made, with the marker of each. -/
  opened : List (Key × ℕ)
  /-- The pull requests that `closeRevert` found or left closed. -/
  closed : List ℕ

/-- The call that a run awaits, with its answer. -/
inductive Call
  /-- The sweep reads the lane and starts a run. -/
  | start
  /-- `mutate`; `now` is the clock inside it. -/
  | mutate (now : Int)
  | mergeCommit (sha : Option String)
  | claimMerge (granted : Bool)
  /-- `ports.read`; `now` is the clock when it answers. -/
  | read (view : CommitChecks) (now : Int)
  | load
  | create (id : Option String)
  | clock (now : Int)
  | list (existing : Option ℕ)
  | pullRequest
  | write
  | response (number : ℕ)
  | close
  /-- The awaited call throws. -/
  | fail
deriving DecidableEq

def World.store (w : World) (change : Merge → Merge) : World :=
  { w with merge := change w.merge }

/-- A `mutate` of the stored recovery, which refuses when there is none or it does not `allow`. -/
def World.amend (w : World) (allow : MergeRecovery → Bool) (change : MergeRecovery → MergeRecovery) :
    World :=
  w.store fun live =>
    match live.recovery with
    | some recovery => if allow recovery then { live with recovery := some (change recovery) } else live
    | none => live

/-- Where `resolveRecovery` goes with the stored recovery. -/
def resolveRecovery (key : Key) (stored : Merge) : Phase :=
  match stored.recovery with
  | none => .done
  | some recovery =>
    if recovery.resolvedAt.isSome then .done
    else
      match recovery.revertPr with
      | some number => .closing number
      | none => if recovery.revertSubmittedAt.isSome then .reconciling key else .resolving none

/-- The way from a recovery to its fix pipeline and on. -/
def proceed (source : Merge) : Option MergeRecovery → Phase
  | none => .done
  | some recovery =>
    if recovery.resolvedAt.isSome then .done
    else if recovery.fixPipelineId.isNone then .creating source recovery
    else .limiting source recovery

variable (redactBounded : String → ℕ → String)

def failureOf (check : CommitCheck) : Failure where
  name := redactBounded check.name 160
  excerpt := redactBounded (check.excerpt.getD "Failed check; log unavailable") 2000

/-- What the run does once it knows how the merge and its parent fare. -/
def judgeLanded (source : Merge) (landed parent : CommitChecks) (now : Int) : Phase :=
  let failed := introduced landed parent
  if failed.isEmpty then
    if settled landed && inherited landed parent then .unwatching else .done
  else
    match firstRedOf now failed with
    -- "recovery clock cannot be established"
    | none => .done
    | some firstRedAt =>
      .reserving source ⟨firstRedAt, failed.map (failureOf redactBounded), none, none, none, none⟩

/-- The admission: the next read is due in a minute, or at the deadline of the recovery. -/
def nextReadOf (source : Merge) (now : Int) : Int :=
  match source.recovery with
  | some recovery =>
    if now < recovery.firstRedAt + RED_MAIN_LIMIT_MS then
      min (now + 60000) (recovery.firstRedAt + RED_MAIN_LIMIT_MS)
    else now + 60000
  | none => now + 60000

def reserve (reservation : MergeRecovery) (live : Merge) : Merge :=
  let due := reservation.firstRedAt + RED_MAIN_LIMIT_MS
  { live with
    recovery := some reservation
    nextReadAt := some (live.nextReadAt.elim due (min · due)) }

/-- One awaited call of a run of `recoverPostMerge`, and what the run does until it awaits again. -/
def recoverPostMerge (w : World) : Call → Phase → Except Unit (World × Phase)
  | .start, .idle => .ok (w, .admitting w.merge)
  | .mutate now, .admitting source =>
    if source.nextReadAt.any (now < ·) || w.merge.nextReadAt.any (now < ·) then .ok (w, .done)
    else
      .ok (w.store fun live => { live with nextReadAt := some (nextReadOf source now) },
        if source.mergeCommit.isNone then .receipt source else .claiming source)
  | .mergeCommit sha, .receipt source =>
    match sha with
    | none => .ok (w, .done)
    | some sha => .ok (w, .recordReceipt source sha)
  | .mutate _, .recordReceipt source sha =>
    if w.merge.mergeCommit.isSome then .ok (w, .done)
    else
      .ok (w.store fun live => { live with mergeCommit := some sha },
        .claiming { source with mergeCommit := some sha })
  | .claimMerge granted, .claiming source => .ok (w, if granted then .readMain source else .done)
  | .read main _, .readMain source =>
    match source.recovery with
    | some recovery =>
      .ok (w, if green main then resolveRecovery (keyOf source) w.merge
        else proceed source (some recovery))
    | none => .ok (w, .readLanded source)
  | .read landed _, .readLanded source =>
    .ok (w, if green landed then .verifying source else .readParent source landed)
  | .mutate now, .verifying source =>
    if w.merge.mergeCommit = source.mergeCommit then
      .ok (w.store fun live => { live with postMergeVerifiedAt := some now }, .done)
    else .ok (w, .done)
  | .read parent now, .readParent source landed =>
    .ok (w, judgeLanded redactBounded source landed parent now)
  | .mutate _, .unwatching => .ok (w.store fun live => { live with postMergeWatch := false }, .done)
  | .mutate _, .reserving source reservation =>
    if w.merge.mergeCommit = source.mergeCommit ∧ w.merge.recovery.isNone then
      .ok (w.store (reserve reservation), .rereading source)
    else .ok (w, .rereading source)
  | .load, .rereading source => .ok (w, proceed source w.merge.recovery)
  | .create id, .creating source recovery =>
    match id with
    | some id => .ok (w, .recordFix source recovery id)
    | none => .ok (w, .limiting source recovery)
  | .fail, .creating source recovery => .ok (w, .limiting source recovery)
  | .mutate _, .recordFix source recovery id =>
    .ok (w.amend (fun live => live.fixPipelineId.isNone) fun live => { live with fixPipelineId := some id },
      .limiting source recovery)
  | .fail, .recordFix source recovery _ => .ok (w, .limiting source recovery)
  | .clock now, .limiting source recovery =>
    .ok (w, if recovery.revertPr.isNone ∧ RED_MAIN_LIMIT_MS ≤ now - recovery.firstRedAt then
      .readAgain source recovery else .done)
  | .read main _, .readAgain source recovery =>
    .ok (w, if green main then resolveRecovery (keyOf source) w.merge
      else .listing { source with recovery := some recovery } recovery recovery.revertSubmittedAt.isSome)
  | .list existing, .listing current recovery reconcileOnly =>
    match existing with
    | some number =>
      if (keyOf current, number) ∈ w.opened then .ok (w, .recordPr number) else .error ()
    | none => .ok (w, if reconcileOnly then .done else .original current recovery)
  | .pullRequest, .original current recovery => .ok (w, .claim current recovery)
  | .mutate now, .claim current recovery =>
    match w.merge.recovery with
    | none => .ok (w, .done)
    | some live =>
      if live.revertSubmittedAt.isSome || live.resolvedAt.isSome then .ok (w, .done)
      else
        .ok (w.store fun merge =>
          { merge with recovery := some { live with revertSubmittedAt := some now } },
          .writing current recovery)
  | .write, .writing current _ =>
    .ok ({ w with sent := keyOf current :: w.sent, pending := keyOf current :: w.pending },
      .responding current)
  | .response number, .responding current =>
    if (keyOf current, number) ∈ w.opened then .ok (w, .recordPr number) else .error ()
  | .mutate _, .recordPr number =>
    .ok (w.amend (fun live => live.revertPr.isNone) fun live => { live with revertPr := some number }, .done)
  | .list existing, .reconciling key =>
    match existing with
    | some number =>
      if (key, number) ∈ w.opened then .ok (w, .recordReconciled number) else .error ()
    -- "revert submission still needs reconciliation"
    | none => .ok (w, .done)
  | .mutate _, .recordReconciled number =>
    .ok (w.amend (fun live => live.resolvedAt.isNone) fun live => { live with revertPr := some number },
      .closing number)
  | .close, .closing number => .ok ({ w with closed := number :: w.closed }, .resolving (some number))
  | .mutate now, .resolving _ =>
    .ok (w.amend (fun live => live.resolvedAt.isNone) fun live => { live with resolvedAt := some now }, .done)
  | .fail, _ => .ok (w, .done)
  | _, _ => .error ()

variable {κ : Type*}

structure State (κ : Type*) where
  world : World
  phase : κ → Phase

/-- The lane was merged, and nothing watched it yet. -/
def initial (merge : Merge) : State κ where
  world := ⟨{ merge with recovery := none }, [], [], [], []⟩
  phase _ := .idle

inductive Event (κ : Type*)
  | call (run : κ) (call : Call)
  | crash (run : κ)
  /-- GitHub carries out a mutation that it has received. -/
  | opens (key : Key) (number : ℕ)

variable [DecidableEq κ]

def step (s : State κ) : Event κ → Except Unit (State κ)
  | .call run call =>
    (recoverPostMerge redactBounded s.world call (s.phase run)).map fun (world, phase) =>
      ⟨world, Function.update s.phase run phase⟩
  | .crash run => .ok { s with phase := Function.update s.phase run .done }
  | .opens key number =>
    if key ∈ s.world.pending then
      .ok { s with world :=
        { s.world with pending := s.world.pending.erase key, opened := s.world.opened ++ [(key, number)] } }
    else .error ()

end Delegatus.PostMerge
