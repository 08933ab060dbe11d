import Delegatus.StageFindings
import Mathlib.Algebra.Order.Field.Rat

/-!
# Verdicts of a stage, read from a message and from a call

`stageVerdictFrom` validates a verdict record. `parseStageVerdict` takes the record from the
last well-formed fenced block of a message, `normalizeStageCompletion` from the arguments of a
completion call. A value that may be undefined is an `Option`; an object keeps its members in
the order they were written, and a later member of a name replaces an earlier one.
-/

namespace Delegatus.StageVerdicts

open JsonText UnitText

def MAX_FINDINGS : Nat := 50

def MAX_FINDING_CHARS : Nat := 2000

def MAX_STAGE_REPORT_SUMMARY_CHARS : Nat := 2000

def MAX_STAGE_RESULT_CHARS : Nat := 160

def MAX_OUTPUT_CHARS : Nat := 32000

/-- The members of an object. -/
abbrev Members := List (Text × Json)

/-- `record[key]`. -/
def property (members : Members) (key : String) : Option Json :=
  (members.reverse.find? (fun member => member.1 = units key)).map (·.2)

inductive StageVerdictStatus where
  | pass
  | fail
  | needs_decision
deriving DecidableEq

structure StageVerdict where
  status : StageVerdictStatus
  blocked : Option Bool := none
  blockedReason : Option Text := none
  findings : Option (List Text) := none
  rankedFindings : Option (List StageFinding) := none
  /-- The number as it was written. -/
  confidence : Option Text := none
deriving DecidableEq

/-! ### The record of a verdict -/

def ALLOWED_KEYS : List Text :=
  ["status", "findings", "rankedFindings", "confidence", "blocked", "blockedReason"].map units

def statusFrom : Option Json → Option StageVerdictStatus
  | some (.string text) =>
    if text = units "pass" then some .pass
    else if text = units "fail" then some .fail
    else if text = units "needs_decision" then some .needs_decision
    else none
  | _ => none

def blockedFrom : Option Json → Option (Option Bool)
  | none => some none
  | some (.bool blocked) => some (some blocked)
  | some _ => none

def blockedReasonFrom (status : StageVerdictStatus) (blocked : Option Bool)
    (blockedReason : Option Json) : Option (Option Text) :=
  if blocked = some true then
    if status ≠ .fail then none
    else
      match blockedReason with
      | some (.string text) =>
        let reason := trim text
        if reason = [] || reason.length > MAX_STAGE_REPORT_SUMMARY_CHARS then none
        else some (some reason)
      | _ => none
  else if blockedReason.isSome then none
  else some none

def findingFrom (allowLegacySeverityOnly : Bool) : Json → Option StageFinding
  | .string finding =>
    let trimmed := trim finding
    if trimmed = [] || trimmed.length > MAX_FINDING_CHARS then none
    else if !allowLegacySeverityOnly &&
        (STAGE_FINDING_SEVERITIES.map StageFindingSeverity.text).contains trimmed then none
    else some (stageFindingFromText trimmed)
  | _ => none

/-- The ranked findings of a record. -/
def findingsFrom (allowLegacySeverityOnly : Bool) :
    Option Json → Option (Option (List StageFinding))
  | none => some none
  | some (.array items) =>
    if items.length > MAX_FINDINGS then none
    else
      match items.mapM (findingFrom allowLegacySeverityOnly) with
      | none => none
      | some findings =>
        let ranked := rankStageFindings findings
        if ranked.any (fun finding => (stageFindingText finding).length > MAX_FINDING_CHARS) then
          none
        else some (some ranked)
  | some _ => none

/-- The digits of a number's text: what stands before the exponent as an integer, and the power
    of ten it is multiplied by. -/
def decimal (literal : Text) : Int × Int :=
  let negative := literal.head? = some 45
  let body := if negative then literal.drop 1 else literal
  let mantissa := body.takeWhile (fun u => u ≠ 101 && u ≠ 69)
  let exponent := (body.dropWhile (fun u => u ≠ 101 && u ≠ 69)).drop 1
  let number := fun (digits : Text) =>
    (digits.filter isDigit).foldl (fun (n : Int) u => n * 10 + Int.ofNat (u.toNat - 48)) 0
  let fraction := (mantissa.dropWhile (· ≠ 46)).drop 1
  let power := if exponent.head? = some 45 then -number exponent else number exponent
  (if negative then -number mantissa else number mantissa, power - fraction.length)

/-- The double nearest to a number's text lies between 0 and 1. The bounds are half way to the
    next double, where the rounding goes to the even one. -/
def inUnitInterval (literal : Text) : Bool :=
  let (digits, power) := decimal literal
  let value : Rat := digits * (10 : Rat) ^ power
  decide (-((2 : Rat) ^ (-1075 : Int)) ≤ value) && decide (value ≤ 1 + (2 : Rat) ^ (-53 : Int))

def confidenceFrom : Option Json → Option (Option Text)
  | none => some none
  | some (.number literal) => if inUnitInterval literal then some (some literal) else none
  | some _ => none

def stageVerdictFrom (value : Json) (allowLegacySeverityOnly : Bool) : Option StageVerdict :=
  match value with
  | .object members =>
    if members.any (fun member => !ALLOWED_KEYS.contains member.1) then none
    else do
      let status ← statusFrom (property members "status")
      let blocked ← blockedFrom (property members "blocked")
      let blockedReason ← blockedReasonFrom status blocked (property members "blockedReason")
      let ranked ← findingsFrom allowLegacySeverityOnly (property members "findings")
      let confidence ← confidenceFrom (property members "confidence")
      return {
        status, blocked, blockedReason, confidence
        findings := ranked.map (·.map stageFindingText)
        rankedFindings := ranked.filter (·.any (·.severity ≠ none)) }
  | _ => none

/-- A member of an object literal, left out where its value is. -/
def member (key : String) (value : Option Json) : Members :=
  (value.map (fun value => (units key, value))).toList

def completionVerdictFrom (value : Json) : Option StageVerdict :=
  match value with
  | .object members =>
    -- a status that is missing stands in the source's record as undefined, which no status is
    stageVerdictFrom (.object (["status", "findings", "confidence", "blocked",
      "blockedReason"].flatMap (fun key => member key (property members key)))) false
  | _ => none

/-! ### Fenced blocks -/

structure FencedBlock where
  index : Nat
  line : Nat
  payload : Text
  payloadStart : Nat
  payloadEnd : Nat
deriving DecidableEq

/-- A fence that no line has closed yet. -/
structure OpenFence where
  marker : UInt16
  length : Nat
  index : Nat
  line : Nat
  payloadStart : Nat

def BACKTICK : UInt16 := 96

def TILDE : UInt16 := 126

/-- The fence characters that a text starts with, three or more of one kind, and the rest of
    the line. -/
def fenceToken (text : Text) : Option (Text × Text) :=
  match text.head? with
  | none => none
  | some marker =>
    let token := text.takeWhile (· = marker)
    let info := text.drop token.length
    if (marker = BACKTICK || marker = TILDE) && token.length ≥ 3 && !info.any isLineTerminator then
      some (token, info)
    else none

/-- `FENCE_LINE_RE`: at most three spaces of indent. -/
def fenceLine (line : Text) : Option (Text × Text) :=
  if (line.takeWhile (· = 32)).length ≤ 3 then fenceToken (line.dropWhile (· = 32)) else none

/-- The loop of `fencedBlocks` over the lines from `offset` on. -/
def scanFences (text : Text) : List Text → Option OpenFence → Nat → Nat → List FencedBlock
  | [], none, _, _ => []
  | [], some fence, _, _ =>
    [{ index := fence.index, line := fence.line, payload := text.drop fence.payloadStart
       payloadStart := fence.payloadStart, payloadEnd := text.length }]
  | rawLine :: lines, fence, offset, lineNumber =>
    let next := offset + rawLine.length + 1
    match fence, fenceLine (dropCr rawLine) with
    | some fence, some (token, info) =>
      if token.head? = some fence.marker && token.length ≥ fence.length && trim info = [] then
        let payloadEnd := if offset > fence.payloadStart then offset - 1 else fence.payloadStart
        { index := fence.index, line := fence.line
          payload := (text.take payloadEnd).drop fence.payloadStart
          payloadStart := fence.payloadStart, payloadEnd } ::
            scanFences text lines none next (lineNumber + 1)
      else scanFences text lines (some fence) next (lineNumber + 1)
    | none, some (token, info) =>
      if token.head? = some BACKTICK && info.contains BACKTICK then
        scanFences text lines none next (lineNumber + 1)
      else
        scanFences text lines (some {
          marker := token.headD BACKTICK, length := token.length, index := offset
          line := lineNumber + 1, payloadStart := min next text.length }) next (lineNumber + 1)
    | fence, none => scanFences text lines fence next (lineNumber + 1)

def fencedBlocks (text : Text) : List FencedBlock :=
  scanFences text (text.splitOn 10) none 0 0

/-! ### The verdict of a message -/

structure FinalVerdictCandidate where
  index : Nat
  verdict : StageVerdict

def malformedReason (what : String) (line : Nat) : String :=
  "canonical completed assistant turn " ++ what ++ ", at the fenced block on line " ++ toString line

/-- What a fenced block reads as: a verdict, or why it is none. -/
def blockVerdict (block : FencedBlock) : Except String FinalVerdictCandidate :=
  match parse block.payload with
  | none => .error (malformedReason "has malformed JSON in the fenced verdict" block.line)
  | some raw =>
    match completionVerdictFrom raw with
    | none =>
      .error (malformedReason "is missing a valid status, findings, or confidence field" block.line)
    | some verdict => .ok { index := block.index, verdict }

def candidatesOf (blocks : List FencedBlock) : List FinalVerdictCandidate :=
  blocks.filterMap (fun block => (blockVerdict block).toOption)

def finalVerdictCandidate (text : Text) : Except String FinalVerdictCandidate :=
  let blocks := fencedBlocks text
  match blocks.getLast? with
  | none => .error "canonical completed assistant turn is missing a fenced JSON verdict"
  | some last =>
    match (candidatesOf blocks).getLast? with
    | none =>
      -- no block is a verdict, so the last one gives the reason
      match blockVerdict last with
      | .error reason => .error reason
      | .ok candidate => .ok candidate
    | some candidate =>
      if (candidatesOf blocks).any (fun other => other.verdict.status ≠ candidate.verdict.status)
      then .error "canonical completed assistant turn has conflicting fenced JSON verdicts"
      else .ok candidate

inductive ProseVerdictMarker where
  | APPROVE
  | REQUEST_CHANGES
  | COMMENT
  | NO_FINDINGS

def PROSE_VERDICT_STATUSES : ProseVerdictMarker → StageVerdictStatus
  | .APPROVE => .pass
  | .REQUEST_CHANGES => .fail
  | .COMMENT => .needs_decision
  | .NO_FINDINGS => .pass

def ProseVerdictMarker.text : ProseVerdictMarker → String
  | .APPROVE => "APPROVE"
  | .REQUEST_CHANGES => "REQUEST_CHANGES"
  | .COMMENT => "COMMENT"
  | .NO_FINDINGS => "NO FINDINGS"

def StageVerdictStatus.text : StageVerdictStatus → String
  | .pass => "pass"
  | .fail => "fail"
  | .needs_decision => "needs_decision"

/-- A letter matches its other case. -/
def upper (u : UInt16) : UInt16 := if 97 ≤ u && u ≤ 122 then u - 32 else u

/-- `PROSE_VERDICT_LINE_RE`. -/
def proseMarker (line : Text) : Option ProseVerdictMarker :=
  let text := (trim line).map upper
  if text = units "NO FINDINGS" then some .NO_FINDINGS
  else if units "VERDICT:" <+: text then
    let word := (text.drop (units "VERDICT:").length).dropWhile isWhite
    if word = units "APPROVE" then some .APPROVE
    else if word = units "REQUEST_CHANGES" then some .REQUEST_CHANGES
    else if word = units "COMMENT" then some .COMMENT
    else none
  else none

/-- The loop of `proseVerdictMarkers`; `fence` is the marker and the length of an open fence. -/
def scanMarkers : List Text → Option (UInt16 × Nat) → List ProseVerdictMarker
  | [], _ => []
  | line :: lines, fence =>
    match fenceToken (line.dropWhile isWhite), fence with
    | some (token, _), none =>
      scanMarkers lines (some (token.headD BACKTICK, token.length))
    | some (token, info), some (marker, length) =>
      if token.head? = some marker && token.length ≥ length && trim info = [] then
        scanMarkers lines none
      else scanMarkers lines fence
    | none, some _ => scanMarkers lines fence
    | none, none =>
      if (line.dropWhile isWhite).head? = some 62 then scanMarkers lines none
      else (proseMarker line).toList ++ scanMarkers lines none

def proseVerdictMarkers (prose : Text) : List ProseVerdictMarker :=
  scanMarkers (lines prose) none

/-- The three results of `parseStageVerdict`; `null` where there is no verdict. -/
inductive ParsedVerdict where
  | null
  | rejected (failureReason : String) (output : Text)
  | parsed (verdict : StageVerdict) (output : Text)
deriving DecidableEq

def parseStageVerdict (text : Text) : ParsedVerdict :=
  match finalVerdictCandidate text with
  | .error _ => .null
  | .ok candidate =>
    let verdict := candidate.verdict
    let prose := trim (text.take candidate.index)
    let output := prose.take MAX_OUTPUT_CHARS
    if verdict.status = .pass && verdict.findings.any (· ≠ []) then
      .rejected "contradictory stage verdict: status \"pass\" cannot include findings" output
    else
      match (proseVerdictMarkers prose).find?
          (fun marker => PROSE_VERDICT_STATUSES marker ≠ verdict.status) with
      | some marker =>
        .rejected ("contradictory stage verdict: prose marker \"" ++ marker.text ++
          "\" disagrees with JSON status \"" ++ verdict.status.text ++ "\"") output
      | none => .parsed verdict output

end Delegatus.StageVerdicts
