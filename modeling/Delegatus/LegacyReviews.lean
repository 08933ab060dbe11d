import Delegatus.UnitText
import Mathlib.Data.List.Nodup
import Mathlib.Data.Prod.Lex

/-!
# Converted review stages

`applyLegacyReviewConversion` replaces a legacy review stage by a reviewer and a fixer, and keeps the
definition that it replaced.  `revertLegacyReviewConversion` puts that definition back while no attempt
ran under the conversion and the digest of the graph is the one that the conversion wrote.  The digest
names its fields one by one; `stageRest` are the fields it leaves out, or normalises.

A digest is a function of what it is taken of; an attempt and a cursor have other fields, which nothing
here reads.
-/

namespace Delegatus.LegacyReviews

open JsonText

/-! ### Stages -/

inductive StageKind
  | run
  | reviewLoop
deriving DecidableEq

inductive StageRuntime
  | «local»
  | codexCloud
  | claudeCloud
deriving DecidableEq

inductive Access
  | readOnly
  | readWrite
deriving DecidableEq

inductive Sandbox
  | full
  | restricted
deriving DecidableEq

inductive Engine
  | claude
  | codex
deriving DecidableEq

inductive FailEdgeExhaustion
  | advance
  | stopAfterFix
  | park
deriving DecidableEq

inductive ServiceTierSource
  | explicit
  | roleDefault
deriving DecidableEq

/-- A field that may be absent, null or present. -/
abbrev Nullable (α : Type) := Option (Option α)

/-- A value of a role parameter: a text, or the text of a number. -/
inductive ParamValue
  | text (text : Text)
  | number (literal : Text)
deriving DecidableEq

structure RoleRef where
  roleId : Text
  params : Option (List (Text × ParamValue))
deriving DecidableEq

structure EffectiveRole where
  engine : Engine
  model : Option Text
  effort : Option Text
  agentMemoryMaxBytes : Nullable ℕ
  serviceTier : Option Text
  serviceTierSource : Option ServiceTierSource
  preferredServiceTier : Option Text
  roleId : Option Text
  access : Access
  promptScaffold : Option Text
deriving DecidableEq

structure FailEdge where
  «to» : Text
  maxRounds : ℕ
  onExhausted : Option FailEdgeExhaustion
deriving DecidableEq

structure Stage where
  id : Text
  kind : StageKind
  runtime : Option StageRuntime
  role : Option RoleRef
  engine : Option Engine
  model : Nullable Text
  effort : Nullable Text
  serviceTier : Nullable Text
  preferredServiceTier : Option Text
  agentMemoryMaxBytes : Nullable ℕ
  access : Option Access
  sandbox : Option Sandbox
  outputs : Option (List Text)
  account : Nullable Text
  «prompt» : Text
  next : Option Text
  onFail : Nullable FailEdge
  effectiveRole : EffectiveRole
deriving DecidableEq

/-! ### Digests -/

structure RuntimeInput where
  roleId : Option Text
  engine : Engine
  model : Option Text
  effort : Option Text
  serviceTier : Option (Text × Option ServiceTierSource)
  preferredServiceTier : Option Text
  access : Access
  promptScaffold : Option Text
deriving DecidableEq

/-- The object of which `stageDigestInput` is the JSON text. -/
structure StageDigestInput where
  stageRuntime : Option StageRuntime
  «prompt» : Text
  account : Option Text
  agentMemoryMaxBytes : Option ℕ
  role : Option (Text × Option (List (Text × ParamValue)))
  runtime : RuntimeInput
  next : Option Text
  onFail : Option FailEdge
deriving DecidableEq

/-- A text that is not empty. -/
def truthy (text : Option Text) : Option Text := text.filter (· ≠ [])

/-- The parameters in key order; no parameters are the same as none. -/
def sortedParams (params : Option (List (Text × ParamValue))) : Option (List (Text × ParamValue)) :=
  (params.filter (· ≠ [])).map fun params => params.mergeSort fun a b => decide (a.1 ≤ b.1)

def stageDigestInput (stage : Stage) : StageDigestInput where
  stageRuntime := stage.runtime
  «prompt» := stage.prompt
  account := truthy (stage.account.join.map UnitText.trim)
  agentMemoryMaxBytes := stage.agentMemoryMaxBytes.join
  role := stage.role.map fun role => (role.roleId, sortedParams role.params)
  runtime :=
    { roleId := stage.effectiveRole.roleId
      engine := stage.effectiveRole.engine
      model := stage.effectiveRole.model
      effort := stage.effectiveRole.effort
      serviceTier := (truthy stage.effectiveRole.serviceTier).map fun tier => (tier, stage.effectiveRole.serviceTierSource)
      preferredServiceTier := truthy stage.effectiveRole.preferredServiceTier
      access := stage.effectiveRole.access
      promptScaffold := stage.effectiveRole.promptScaffold }
  next := stage.next
  onFail := stage.onFail.join

/-- SHA-256 of the text of a stage, and of that of a graph. -/
structure Hashes (δ : Type*) where
  stage : StageDigestInput → δ
  graph : List (Text × δ) → δ

variable {δ α κ : Type} (hashes : Hashes δ)

def stageDigest (stage : Stage) : δ := hashes.stage (stageDigestInput stage)

def graphDigest (stages : List Stage) : δ :=
  hashes.graph (stages.map fun stage => (stage.id, stageDigest hashes stage))

/-! ### Pipelines -/

/-- An attempt; `rest` are its other fields. -/
structure Attempt (α : Type) where
  historical : Option Bool
  legacyReview : Option Bool
  rest : α

structure Run (α : Type) where
  stageId : Text
  attempts : List (Attempt α)

inductive CursorState
  | pending
  | spawning
  | running
  | reviewing
  | committing

/-- A cursor; `rest` are its other fields. -/
structure Cursor (κ : Type) where
  stageId : Text
  state : CursorState
  rest : κ

inductive PipelineState
  | draft
  | provisioning
  | running
  | needsDecision
  | needsReview
  | paused
  | completed
  | closed
deriving DecidableEq

structure Receipt where
  clientRequestId : Text
  actor : Text
  «at» : Text

structure Original (α κ : Type) where
  stages : List Stage
  run : Run α
  cursor : Option (Cursor κ)
  stateDetail : Nullable Text

structure Conversion (δ α κ : Type) where
  expectedRevision : Text
  receipt : Receipt
  stageId : Text
  fixerStageId : Text
  implementerStageId : Text
  reviewLimit : ℕ
  reviewLimitSource : Text
  original : Original α κ
  convertedGraphDigest : δ
  reverted : Option Receipt

structure Pipeline (δ α κ : Type) where
  stages : List Stage
  runs : List (Run α)
  cursor : Option (Cursor κ)
  state : PipelineState
  pausedState : Option PipelineState
  stateDetail : Option Text
  legacyReviewConversions : Option (List (Conversion δ α κ))

/-- An accepted preview. -/
structure Preview where
  stageId : Text
  implementerStageId : Text
  fixerStageId : Text
  reviewLimit : ℕ
  reviewLimitSource : Text
  stages : List Stage

def STAGE_ID_MAX : ℕ := 64

/-- `<review>-fix`, then `-2`…: the first id that no stage holds. -/
def fixerStageId (reviewId : Text) (taken : List Text) : Option Text :=
  let base := reviewId.take (STAGE_ID_MAX - (units "-fix-99").length) ++ units "-fix"
  ((List.range' 1 99).map fun index => if index = 1 then base else base ++ units ("-" ++ index.repr)).find?
    fun id => id ∉ taken

/-! ### Conversions -/

/-- An attempt of the legacy stage becomes history. -/
def keepAttempt (attempt : Attempt α) : Attempt α :=
  if attempt.historical = some true then attempt
  else { attempt with historical := some true, legacyReview := some true }

/-- The attempts of the first run of the stage. -/
def keepAttempts (stageId : Text) : List (Run α) → List (Run α)
  | [] => []
  | run :: rest =>
    if run.stageId = stageId then { run with attempts := run.attempts.map keepAttempt } :: rest
    else run :: keepAttempts stageId rest

/-- The fixer gets a run after that of the reviewer. -/
def withFixer (stageId fixerId : Text) (runs : List (Run α)) : List (Run α) :=
  runs.flatMap fun run => if run.stageId = stageId then [run, ⟨fixerId, []⟩] else [run]

/-- `none` is the error of a stage without a run. -/
def applyLegacyReviewConversion (pipeline : Pipeline δ α κ) (preview : Preview) (expectedRevision : Text)
    (receipt : Receipt) : Option (Pipeline δ α κ × Conversion δ α κ) :=
  (pipeline.runs.find? fun run => run.stageId = preview.stageId).map fun run =>
    let conversion : Conversion δ α κ := {
      expectedRevision := expectedRevision
      receipt := receipt
      stageId := preview.stageId
      fixerStageId := preview.fixerStageId
      implementerStageId := preview.implementerStageId
      reviewLimit := preview.reviewLimit
      reviewLimitSource := preview.reviewLimitSource
      original := ⟨pipeline.stages, run, pipeline.cursor, some pipeline.stateDetail⟩
      convertedGraphDigest := graphDigest hashes preview.stages
      reverted := none }
    let atReview := pipeline.cursor.any fun cursor => cursor.stageId = preview.stageId
    ({ pipeline with
        stages := preview.stages
        runs := withFixer preview.stageId preview.fixerStageId (keepAttempts preview.stageId pipeline.runs)
        cursor := if atReview then pipeline.cursor.map fun cursor => { cursor with state := .pending } else pipeline.cursor
        stateDetail :=
          if atReview ∧ (pipeline.state = .needsDecision ∨ pipeline.pausedState = some .needsDecision) then
            some (units "review stage " ++ preview.stageId ++
              units " was converted to run stages; retry it to run the new reviewer")
          else pipeline.stateDetail
        legacyReviewConversions := some (pipeline.legacyReviewConversions.getD [] ++ [conversion]) }, conversion)

/-- The last conversion of a stage that was not reverted, and its place. -/
def openConversion (conversions : List (Conversion δ α κ)) (stageId : Text) : Option (ℕ × Conversion δ α κ) :=
  ((conversions.mapIdx fun index item => (index, item)).filter fun item =>
    item.2.stageId = stageId && item.2.reverted.isNone).getLast?

/-- A new attempt ran under the conversion. -/
def ran (conversion : Conversion δ α κ) (runs : List (Run α)) : Bool :=
  (runs.filter fun run => run.stageId = conversion.stageId || run.stageId = conversion.fixerStageId).any fun run =>
    run.attempts.any fun attempt => attempt.historical ≠ some true

variable [DecidableEq δ]

/-- The pipeline after the call, and the conversion that it reverted or the error. -/
def revertLegacyReviewConversion (pipeline : Pipeline δ α κ) (stageId : Text) (receipt : Receipt) :
    Pipeline δ α κ × Except Text (Conversion δ α κ) :=
  let conversions := pipeline.legacyReviewConversions.getD []
  match openConversion conversions stageId with
  | none => (pipeline, .error (units "stage " ++ stageId ++ units " has no conversion to revert"))
  | some (index, conversion) =>
    if ran conversion pipeline.runs then
      (pipeline, .error (units "a new attempt already ran under the conversion of " ++ stageId ++
        units "; keep it and repair it forward"))
    else if graphDigest hashes pipeline.stages ≠ conversion.convertedGraphDigest then
      (pipeline, .error (units "the converted graph changed since " ++ stageId ++
        units " was converted; repair it forward"))
    else
      let reverted := { conversion with reverted := some receipt }
      ({ pipeline with
          stages := conversion.original.stages
          runs := (pipeline.runs.filter fun run => run.stageId ≠ conversion.fixerStageId).map fun run =>
            if run.stageId = conversion.stageId then conversion.original.run else run
          cursor :=
            if pipeline.cursor.any (fun cursor =>
                cursor.stageId = conversion.stageId || cursor.stageId = conversion.fixerStageId) then
              conversion.original.cursor
            else pipeline.cursor
          stateDetail := conversion.original.stateDetail.getD pipeline.stateDetail
          legacyReviewConversions := some (conversions.mapIdx fun position item =>
            if position = index then reverted else item) }, .ok reverted)

end Delegatus.LegacyReviews
