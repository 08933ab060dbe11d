import Delegatus.Entries
import Delegatus.JsStrings
import Delegatus.Runs

/-!
# What one read of a pull request means for its merge

`decideMerge` reads the merge record and one view of the pull request, updates the record's
check bookkeeping (the head clock, the check names of the last read and of all reads), and
answers the next move.  A read of a pull request that is merged, closed, a draft, not at the tip of
the record's chain, or under requested changes stops before the bookkeeping.
-/

namespace Delegatus.AutoMerge

/-! ### The record and the view -/

def MERGE_SETTLE_MS : Int := 3 * 60000

def MERGE_WAIT_LIMIT_MS : Int := 90 * 60000

inductive CheckVerdict
  | pending
  | green
  | red
deriving DecidableEq

structure ReadCheck where
  name : String
  verdict : CheckVerdict
deriving DecidableEq

inductive ReviewState
  | changesRequested
  | approved
  | dismissed
  | commented
  | pending
deriving DecidableEq

structure PullRequestReview where
  reviewer : Option String
  isBot : Bool
  state : ReviewState

structure PullRequestView where
  state : String
  isDraft : Bool
  headRefOid : String
  mergeable : Option String
  mergeStateStatus : Option String
  reviewDecision : Option String
  checks : List ReadCheck
  reviews : Option (List PullRequestReview)

inductive PipelineMergeState
  | refreshing
  | queued
  | checking
  | waitingChecks
  | updating
  | merging
  | merged
  | blocked
  | cancelled
deriving DecidableEq

/-- One base update; `head` stays `none` until its commit is admitted to the chain. -/
structure BaseUpdate where
  requestedAt : Int
  head : Option String
  commit : Option String
  base : Option String

/-- The part of a `PipelineMerge` that decides a read. -/
structure MergeRecord where
  state : PipelineMergeState
  effectUncertain : Bool
  chain : List String
  updates : List BaseUpdate
  seenChecks : List String
  head : Option String
  headSeenAt : Option Int
  lastChecks : Option (List String)

/-- `newMerge`. -/
def newMerge (lastPassedCommit : String) : MergeRecord where
  state := .queued
  effectUncertain := false
  chain := [lastPassedCommit]
  updates := []
  seenChecks := []
  head := none
  headSeenAt := none
  lastChecks := none

namespace MERGE_REASONS

def conflict : String := "conflict with the base branch"
def noChecks : String := "no checks reported on this head"
def checksTimeout : String := "checks did not finish in 90 min"
def draft : String := "the PR is a draft"
def closed : String := "the PR was closed"
def headChanged : String := "the PR head changed after the lane finished"
def changesRequested : String := "a reviewer requested changes"
def reviewRequired : String := "branch protection wants an approving review"
def protection : String := "branch protection wants something else (GitHub says BLOCKED)"

end MERGE_REASONS

def checkFailedReason (name : String) : String := "check \"" ++ name ++ "\" failed"

inductive MergedBy
  | autoMerge
  | outside
deriving DecidableEq

inductive WaitState
  | checking
  | waitingChecks
  | updating
deriving DecidableEq

inductive Step
  | wait (state : WaitState) (reason : Option String)
  | block (reason : String)
  | merged (mergedBy : MergedBy)
  | refresh
  | merge
deriving DecidableEq

/-! ### Reviews -/

/-- The last submitted verdict of each reviewer; an unavailable reviewer is its own. -/
def latestReviews (reviews : List PullRequestReview) : Entries String PullRequestReview :=
  reviews.zipIdx.foldl
    (fun latest entry =>
      if entry.1.state = .commented ∨ entry.1.state = .pending then latest
      else latest.set (entry.1.reviewer.getD ("unknown:" ++ toString entry.2), entry.1))
    Table.empty

def changesRequested (view : PullRequestView) : Bool :=
  let requests := ((latestReviews (view.reviews.getD [])).rows.map Prod.snd).filter
    fun review => review.state = .changesRequested
  if requests.any fun review => !review.isBot then true
  else view.reviewDecision = some "CHANGES_REQUESTED" && !requests.any fun review => review.isBot

/-! ### The decision -/

/-- The reads that stop before the bookkeeping. -/
def stopOf (merge : MergeRecord) (view : PullRequestView) : Option Step :=
  if view.state = "MERGED" then
    some (.merged (if merge.state = .merging ∨ merge.effectUncertain then .autoMerge else .outside))
  else if view.state = "CLOSED" then some (.block MERGE_REASONS.closed)
  else if changesRequested view then some (.block MERGE_REASONS.changesRequested)
  else if view.isDraft ∨ view.mergeStateStatus = some "DRAFT" then some (.block MERGE_REASONS.draft)
  else if some view.headRefOid ≠ merge.chain.getLast? then some (.block MERGE_REASONS.headChanged)
  else none

def outstanding (updates : List BaseUpdate) : Bool := updates.any fun update => update.head = none

def checkNames (view : PullRequestView) : List String := view.checks.map ReadCheck.name

/-- The record for the head that is read: another head starts its clock and its names anew. -/
def forHead (merge : MergeRecord) (head : String) : MergeRecord :=
  if merge.head = some head then merge
  else { merge with head := some head, headSeenAt := none, lastChecks := none }

/-- The bookkeeping of a read. -/
def track (merge : MergeRecord) (view : PullRequestView) (now : Int) : MergeRecord :=
  { forHead merge view.headRefOid with
    headSeenAt :=
      if view.mergeStateStatus = some "BEHIND" ∧ outstanding merge.updates = false then none
      else some ((forHead merge view.headRefOid).headSeenAt.getD now)
    lastChecks := some (checkNames view)
    seenChecks := JsStrings.sort (merge.seenChecks ++ checkNames view).eraseDups }

/-- The required contexts that the read does not name. -/
def missingContexts (merge : MergeRecord) (view : PullRequestView) (required : List String) :
    List String :=
  (required ++ merge.seenChecks).eraseDups.filter fun name =>
    decide (name ∈ required) && !decide (name ∈ checkNames view)

/-- The checks of required contexts that are not green. -/
def pendingChecks (view : PullRequestView) (required : List String) : List ReadCheck :=
  view.checks.filter fun check => decide (check.name ∈ required) && decide (check.verdict ≠ .green)

/-- The checks have arrived and settled, and the required ones are green. -/
def settled (previous : Option (List String)) (merge : MergeRecord) (view : PullRequestView)
    (required : List String) (age : Int) : Bool :=
  !(checkNames view).isEmpty && (missingContexts merge view required).isEmpty &&
    decide (age ≥ MERGE_SETTLE_MS) &&
    previous.any (fun names => (checkNames view).all fun name => decide (name ∈ names)) &&
    (pendingChecks view required).isEmpty

/-- Why a read whose checks have not settled waits, or blocks. -/
def unsettled (merge : MergeRecord) (view : PullRequestView) (required : List String) (age : Int) : Step :=
  let missing := missingContexts merge view required
  if checkNames view = [] ∧ missing = [] ∧ age ≥ MERGE_SETTLE_MS then .block MERGE_REASONS.noChecks
  else if age ≥ MERGE_WAIT_LIMIT_MS then .block MERGE_REASONS.checksTimeout
  else
    let waiting := (missing ++ (pendingChecks view required).map ReadCheck.name).eraseDups
    .wait .waitingChecks
      (some (if waiting = [] then "waiting for checks to settle"
        else "waiting for " ++ ", ".intercalate waiting))

/-- What the settled read means. -/
def mergeability (view : PullRequestView) : Step :=
  if (view.mergeStateStatus = some "CLEAN" ∨ view.mergeStateStatus = some "HAS_HOOKS" ∨
      view.mergeStateStatus = some "UNSTABLE") ∧ view.mergeable = some "MERGEABLE" then .merge
  else if view.mergeStateStatus = some "BLOCKED" then
    .block (if view.reviewDecision = some "REVIEW_REQUIRED" then MERGE_REASONS.reviewRequired
      else MERGE_REASONS.protection)
  else .wait .checking none

/-- The decision after the bookkeeping; `previous` are the names of the previous read of the head. -/
def judge (previous : Option (List String)) (merge : MergeRecord) (view : PullRequestView)
    (required : List String) (now : Int) : Step :=
  let red := view.checks.find? fun check => check.verdict = .red
  let age := now - merge.headSeenAt.getD now
  if view.mergeStateStatus = some "DIRTY" ∨ view.mergeable = some "CONFLICTING" then
    .block MERGE_REASONS.conflict
  else if outstanding merge.updates then
    if age ≥ MERGE_WAIT_LIMIT_MS then .block MERGE_REASONS.checksTimeout
    else .wait .updating (red.map fun check => checkFailedReason check.name)
  else
    match red with
    | some check => .block (checkFailedReason check.name)
    | none =>
      if view.mergeStateStatus = some "BEHIND" then .refresh
      else if settled previous merge view required age then mergeability view
      else unsettled merge view required age

def decideMerge (merge : MergeRecord) (view : PullRequestView) (required : List String) (now : Int) :
    MergeRecord × Step :=
  match stopOf merge view with
  | some step => (merge, step)
  | none =>
    (track merge view now,
      judge (forHead merge view.headRefOid).lastChecks (track merge view now) view required now)

end Delegatus.AutoMerge
