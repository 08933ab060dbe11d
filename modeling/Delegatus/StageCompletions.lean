import Delegatus.StageVerdicts

/-!
# Completion calls of a stage

`normalizeStageCompletion` validates the arguments of a call, renders its findings and hands the
record to `stageVerdictFrom`. Summaries, results and task summaries are normalized beside it.
-/

namespace Delegatus.StageVerdicts

open JsonText UnitText

def TASK_SUMMARY_HEADLINE_LIMIT : Nat := 120

def TASK_SUMMARY_TEXT_LIMIT : Nat := 600

def TASK_SUMMARY_LEFT_LIMIT : Nat := 200

/-! ### Texts beside the verdict -/

/-- The non-breaking spaces. -/
def isGlue (u : UInt16) : Bool := u = 0xA0 || u = 0x2007 || u = 0x202F || u = 0xFEFF

/-- The replacement of `collapseSpaces`; `run` is the first unit of the white space just read and
    whether all of it is non-breaking. -/
def collapseRuns : Option (UInt16 × Bool) → Text → Text
  | none, [] => []
  | some (first, glue), [] => [if glue then first else 32]
  | none, u :: rest =>
    if isWhite u then collapseRuns (some (u, isGlue u)) rest else u :: collapseRuns none rest
  | some (first, glue), u :: rest =>
    if isWhite u then collapseRuns (some (first, glue && isGlue u)) rest
    else (if glue then first else 32) :: u :: collapseRuns none rest

def collapseSpaces (text : Text) : Text := trim (collapseRuns none text)

structure TaskSummaryContent where
  headline : Text
  text : Text
  left : Option Text
deriving DecidableEq

/-- One field of a task summary: its text, or the error. -/
def summaryField (field : String) (limit : Nat) (oneLine required : Bool) (raw : Option Json) :
    Except String Text :=
  match raw with
  | some (.string raw) =>
    if oneLine && raw.any (fun u => u = 13 || u = 10) then
      .error ("summary." ++ field ++ " must be one line of at most " ++ toString limit ++
        " characters")
    else
      let text := collapseSpaces raw
      if text.length > limit || (required && text = []) then
        .error ("summary." ++ field ++ " must be " ++ (if required then "1 to" else "at most") ++
          " " ++ toString limit ++ " characters")
      else .ok text
  | _ => .error ("summary." ++ field ++ " must be a string of at most " ++ toString limit ++
      " characters")

def normalizeTaskSummary (input : Json) : Except String TaskSummaryContent :=
  match input with
  | .object raw => do
    let headline ← summaryField "headline" TASK_SUMMARY_HEADLINE_LIMIT true true
      (property raw "headline")
    let text ← summaryField "text" TASK_SUMMARY_TEXT_LIMIT false true (property raw "text")
    if (property raw "left").isNone then return { headline, text, left := none }
    else
      let left ← summaryField "left" TASK_SUMMARY_LEFT_LIMIT true false (property raw "left")
      return { headline, text, left := if left = [] then none else some left }
  | _ => .error "summary must be an object with headline and text"

/-! ### The call -/

structure StageCompletionInput where
  verdict : Option Json
  findings : Option Json := none
  summary : Option Json := none
  result : Option Json := none
  taskSummary : Option Json := none
  blocked : Option Json := none
  blockedReason : Option Json := none

inductive StageCompletionRefusalCode where
  | STAGE_REPORT_INVALID
  | STAGE_REPORT_CONTRADICTORY
deriving DecidableEq

structure StageCompletionRefusal where
  error : String
  code : StageCompletionRefusalCode
deriving DecidableEq

structure NormalizedStageCompletion where
  verdict : StageVerdict
  summary : Option Text
  result : Option Text
  taskSummary : Option TaskSummaryContent
deriving DecidableEq

def refusal (error : String) (code : StageCompletionRefusalCode := .STAGE_REPORT_INVALID) :
    StageCompletionRefusal :=
  { error, code }

/-- `text || null`. -/
def orNull (text : Text) : Option Text := if text = [] then none else some text

def severityFrom : Option Json → Option StageFindingSeverity
  | some (.string text) => STAGE_FINDING_SEVERITIES.find? (fun severity => severity.text = text)
  | _ => none

/-- `typeof value === "string" ? value.trim() : ""`. -/
def trimmedFrom : Option Json → Text
  | some (.string text) => trim text
  | _ => []

/-- One entry of the call's findings. -/
def callFinding (raw : Json) : Except StageCompletionRefusal StageFinding :=
  match raw with
  | .object finding =>
    match severityFrom (property finding "severity") with
    | none => .error (refusal "each finding needs a severity of P0, P1, P2, P3")
    | some severity =>
      let text := trimmedFrom (property finding "text")
      if text = [] then .error (refusal "each finding needs a non-empty text")
      else if (stageFindingText { severity := some severity, text }).length > MAX_FINDING_CHARS then
        .error (refusal "each rendered finding must be at most 2000 characters")
      else .ok { severity := some severity, text }
  | _ => .error (refusal "each finding must be an object \x7b severity, text \x7d")

def callFindings : Option Json → Except StageCompletionRefusal (List StageFinding)
  | none => .ok []
  | some .null => .ok []
  | some (.array raw) =>
    if raw.length > MAX_FINDINGS then .error (refusal "findings must hold at most 50 entries")
    else raw.mapM callFinding
  | some _ => .error (refusal "findings must be an array of \x7b severity, text \x7d")

/-- The record that the call hands to the shared normalizer. -/
def callRecord (status : StageVerdictStatus) (findings : List StageFinding)
    (blocked blockedReason : Option Json) : Json :=
  let rendered := (rankStageFindings findings).map stageFindingText
  .object ([(units "status", .string (units status.text))] ++
    (if rendered = [] then [] else [(units "findings", .array (rendered.map Json.string))]) ++
    member "blocked" blocked ++ member "blockedReason" blockedReason)

/-- The summary, the result and the task summary, bounded and normalized. -/
def callTexts (input : StageCompletionInput) :
    Except StageCompletionRefusal (Option Text × Option Text × Option TaskSummaryContent) := do
  let summary := (trimmedFrom input.summary).take MAX_STAGE_REPORT_SUMMARY_CHARS
  let result ← match input.result with
    | none => .ok []
    | some (.string text) => .ok (collapseSpaces text)
    | some _ => .error (refusal "result must be a string of at most 160 characters")
  if result.length > MAX_STAGE_RESULT_CHARS then
    .error (refusal "result must be at most 160 characters")
  else
    match input.taskSummary with
    | none => .ok (orNull summary, orNull result, none)
    | some taskSummary =>
      match normalizeTaskSummary taskSummary with
      | .error error => .error (refusal ("taskSummary" ++ (error.drop 7).toString))
      | .ok value => .ok (orNull summary, orNull result, some value)

def normalizeStageCompletion (input : StageCompletionInput) :
    Except StageCompletionRefusal NormalizedStageCompletion :=
  match statusFrom input.verdict with
  | none => .error (refusal "verdict must be one of pass, fail, needs_decision")
  | some status =>
    match callFindings input.findings with
    | .error refused => .error refused
    | .ok findings =>
      if status = .pass && findings ≠ [] then
        .error (refusal "contradictory stage verdict: status \"pass\" cannot include findings"
          .STAGE_REPORT_CONTRADICTORY)
      else
        match stageVerdictFrom (callRecord status findings input.blocked input.blockedReason)
            false with
        | none => .error (refusal ("the reported verdict is invalid: blocked must be boolean; " ++
            "blocked:true requires fail and a non-empty blockedReason of at most 2000 characters; " ++
            "blockedReason requires blocked:true"))
        | some verdict =>
          (callTexts input).map (fun (summary, result, taskSummary) =>
            { verdict, summary, result, taskSummary })

end Delegatus.StageVerdicts
