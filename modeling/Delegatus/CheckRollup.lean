import Delegatus.LatestValues
import Delegatus.MergeDecisions
import Mathlib

/-!
# The checks of a pull request

`rollupChecksWithIdentity` turns the entries of a status rollup into checks.  A status context is
known by its name, a check run by its app, workflow and name; among entries known as one the latest
start decides, and an entry whose app or workflow is missing is kept as it is.
The map of the known ones is keyed by a text, in which a NUL character separates the parts.
-/

namespace Delegatus.CheckRollup

open AutoMerge (CheckVerdict)

/-! ### Entries -/

/-- The value of a field of an entry; `other` carries the text that `String` makes of it. -/
inductive Field
  | undefined
  | null
  | text (value : String)
  | integer (value : Int)
  | other (shown : String)
deriving DecidableEq

/-- `typeof value === "string" ? value : ""`. -/
def Field.textOr : Field → String
  | .text value => value
  | _ => ""

/-- `typeof value === "string"`. -/
def Field.isText : Field → Bool
  | .text _ => true
  | _ => false

/-- `String(value ?? "")`. -/
def Field.shown : Field → String
  | .undefined => ""
  | .null => ""
  | .text value => value
  | .integer value => toString value
  | .other shown => shown

structure Workflow where
  name : Field

structure WorkflowRun where
  workflow : Option Workflow

structure CheckSuite where
  workflowRun : Option WorkflowRun

structure App where
  id : Field

/-- An entry of the rollup; the records in it are `none` where the value is no object. -/
structure Entry where
  typename : Field
  context : Field
  name : Field
  state : Field
  startedAt : Field
  status : Field
  conclusion : Field
  app : Option App
  checkSuite : Option CheckSuite

inductive CheckSource
  | status
  | check
deriving DecidableEq

def CheckSource.text : CheckSource → String
  | .status => "status"
  | .check => "check"

structure Check where
  name : String
  source : CheckSource
  verdict : CheckVerdict
  startedAt : Int
  appId : Option Int
  workflow : Option String
  ambiguous : Bool := false
deriving DecidableEq

structure ReadCheck extends AutoMerge.ReadCheck where
  source : CheckSource
  appId : Option Int
  workflow : Option String

/-- What the language does with texts: `Date.parse` (`none` for `NaN`), upper case, and the order. -/
structure Texts where
  parse : String → Option Int
  toUpperCase : String → String
  localeCompare : String → String → Int

def RED : List String :=
  ["FAILURE", "CANCELLED", "TIMED_OUT", "ACTION_REQUIRED", "STARTUP_FAILURE", "ERROR"]

def GREEN : List String := ["SUCCESS", "NEUTRAL", "SKIPPED"]

def MAX_SAFE_INTEGER : Int := 2 ^ 53 - 1

section

variable (texts : Texts)

def statusVerdict (state : String) : CheckVerdict :=
  if state = "SUCCESS" then .green else if state ∈ RED then .red else .pending

def checkVerdict (status conclusion : String) : CheckVerdict :=
  if status ≠ "COMPLETED" then .pending
  else if conclusion ∈ RED then .red
  else if conclusion ∈ GREEN then .green
  else .pending

def App.safeId (app : App) : Option Int :=
  match app.id with
  | .integer id => if -MAX_SAFE_INTEGER ≤ id ∧ id ≤ MAX_SAFE_INTEGER then some id else none
  | _ => none

def Entry.workflow (entry : Entry) : Option Workflow :=
  entry.checkSuite.bind fun suite => suite.workflowRun.bind fun run => run.workflow

def Workflow.properName (workflow : Workflow) : Option String :=
  if workflow.name.textOr = "" then none else some workflow.name.textOr

def checkOf (entry : Entry) : Option Check :=
  let startedAt := (texts.parse entry.startedAt.textOr).getD 0
  if entry.typename = .text "StatusContext" ∨
      entry.context.isText = true ∧ entry.name = .undefined then
    let name := entry.context.textOr
    let state := texts.toUpperCase entry.state.shown
    if name = "" then none
    else some
      { name
        source := .status
        verdict := statusVerdict state
        startedAt
        appId := none
        workflow := none }
  else
    let name := entry.name.textOr
    if name = "" then none
    else some
      { name
        source := .check
        verdict := checkVerdict (texts.toUpperCase entry.status.shown)
          (texts.toUpperCase entry.conclusion.shown)
        startedAt
        appId := entry.app.bind App.safeId
        workflow := entry.workflow.bind Workflow.properName }

/-! ### The rollup -/

def SEPARATOR : Char := '\x00'

/-- The parts with a NUL between each two. -/
def joined : List String → List Char
  | [] => []
  | [part] => part.toList
  | part :: parts => part.toList ++ SEPARATOR :: joined parts

/-- The text that the map is keyed by. -/
def identityOf (check : Check) : Option String :=
  match check.source with
  | .status => some (String.ofList (joined ["status", check.name]))
  | .check =>
      match check.appId, check.workflow with
      | some appId, some workflow =>
          some (String.ofList (joined ["check", toString appId, workflow, check.name]))
      | _, _ => none

structure Kept where
  byIdentity : Entries String Check
  unproven : List Check

def keep (kept : Kept) (check : Check) : Kept :=
  match identityOf check with
  | none => { kept with unproven := kept.unproven ++ [check] }
  | some identity =>
      match kept.byIdentity.at? identity with
      | none => { kept with byIdentity := kept.byIdentity.set (identity, check) }
      | some previous =>
          if previous.startedAt < check.startedAt then
            { kept with byIdentity := kept.byIdentity.set (identity, check) }
          else if check.startedAt = previous.startedAt ∧ check.verdict ≠ previous.verdict then
            { kept with
              byIdentity := kept.byIdentity.set
                (identity, { check with verdict := .pending, ambiguous := true }) }
          else kept

def Check.read (check : Check) : ReadCheck :=
  { name := check.name
    verdict := check.verdict
    source := check.source
    appId := check.appId
    workflow := check.workflow }

/-- The comparator of the sort: the next key decides where one compares equal. -/
def compareReads (a b : ReadCheck) : Int :=
  let byName := texts.localeCompare a.name b.name
  let bySource := texts.localeCompare a.source.text b.source.text
  let byWorkflow := texts.localeCompare (a.workflow.getD "") (b.workflow.getD "")
  if byName ≠ 0 then byName
  else if bySource ≠ 0 then bySource
  else if byWorkflow ≠ 0 then byWorkflow
  else a.appId.getD (-1) - b.appId.getD (-1)

/-- The checks of the entries; `none` stands for an entry that is no object. -/
def checksOf (entries : List (Option Entry)) : List Check :=
  entries.filterMap fun entry => entry.bind (checkOf texts)

def keepAll (checks : List Check) : Kept := checks.foldl keep ⟨Table.empty, []⟩

/-- `rollup` is `none` where the value is no array. -/
def rollupChecksWithIdentity (rollup : Option (List (Option Entry))) : List ReadCheck :=
  let kept := keepAll (checksOf texts (rollup.getD []))
  let checks := kept.byIdentity.rows.map Prod.snd ++ kept.unproven
  (checks.map Check.read).mergeSort fun a b => compareReads texts a b ≤ 0

/-- Compact projection used by consumers that only need names and verdicts. -/
def rollupChecks (rollup : Option (List (Option Entry))) : List AutoMerge.ReadCheck :=
  (rollupChecksWithIdentity texts rollup).map ReadCheck.toReadCheck

end

end Delegatus.CheckRollup
