import Delegatus.OrderedLists
import Delegatus.UnitText
import Mathlib.Data.List.DropRight

/-!
# The history of failed publications

A pipeline keeps, for each accepted head, the failed operations that tried to publish it, with counters
that outlive the bounded history.  `recordPublicationFailure` adds the failure of the pipeline's current
operation, `mergePublicationRecovery` unites the histories of two lanes, and a stored pipeline is read
only if its histories satisfy `isPublicationRecovery`.
-/

namespace Delegatus.Publication

open JsonText OrderedLists

/-- One proof for each `∈` of texts that a definition decides. -/
local instance lawfulText : LawfulBEq Text := inferInstance

/-! ### Texts -/

/-- A text has the pattern somewhere in it. -/
def includes (pattern : Text) : Text → Bool
  | [] => pattern.isEmpty
  | u :: rest => pattern.isPrefixOf (u :: rest) || includes pattern rest

/-- `/^[0-9a-f]{40}$/i`. -/
def fullHead (sha : Text) : Bool :=
  sha.length = 40 && sha.all fun u => isDigit u || (0x61 ≤ u && u ≤ 0x66) || (0x41 ≤ u && u ≤ 0x46)

/-- The rest of a text after a prefix that it has. -/
def after? (start text : Text) : Option Text :=
  if start.isPrefixOf text then some (text.drop start.length) else none

/-- What `.*` reaches. -/
def restOfLine (text : Text) : Text := text.takeWhile fun u => !UnitText.isLineTerminator u

/-- `/^PRIVACY GATE:[ \t]*FAIL$|^pre-push: privacy:.*(?:failed|refused)/` of the trimmed line. -/
def publicationPrivacyRefusal (line : Text) : Bool :=
  let line := UnitText.trim line
  (after? (units "PRIVACY GATE:") line).any (fun rest =>
      rest.dropWhile (fun u => u = 0x20 || u = 0x09) = units "FAIL") ||
    (after? (units "pre-push: privacy:") line).any fun rest =>
      includes (units "failed") (restOfLine rest) || includes (units "refused") (restOfLine rest)

def TRANSPORT_ADMITTED : Text :=
  units "pre-push: verified completed checks for this publication; transport admitted"

/-- `output.split("\n").map(line => line.trim())`. -/
def trimmedLines (output : Text) : List Text := (output.splitOn 0x0A).map UnitText.trim

/-- `/^(?:remote:.*fatal error|!\s+\[remote rejected\])/`. -/
def refusesRemotely (line : Text) : Bool :=
  (after? (units "remote:") line).any (fun rest => includes (units "fatal error") (restOfLine rest)) ||
    (after? (units "!") line).any fun rest =>
      rest.head?.any UnitText.isWhite && (units "[remote rejected]").isPrefixOf (rest.dropWhile UnitText.isWhite)

def publicationRemoteRefusalLine (output : Text) : Option Text := (trimmedLines output).find? refusesRemotely

/-! ### Results of publications -/

structure Failure where
  step : Text
  outputTail : Text
  retryableDeadline : Bool
  retryableApp403 : Bool
  observedAt : Option Text

inductive Result
  | ok
  | refused (error : Text) (failure : Option Failure)

/-- The phase that `/^pre-push: ([^;:]{1,60}):/` names. -/
def phaseName (rest : Text) : Text := rest.takeWhile fun u => u ≠ 0x3B && u ≠ 0x3A

/-- `/^pre-push: [^;:]{1,60}: failed \(/`. -/
def failedPhase (line : Text) : Option Text :=
  (after? (units "pre-push: ") line).bind fun rest =>
    let name := phaseName rest
    if 1 ≤ name.length ∧ name.length ≤ 60 ∧ (units ": failed (").isPrefixOf (rest.drop name.length) then some name
    else none

/-- The last loop of `publicationFailurePhase`, over the lines from the last one on. -/
def unfinishedPhase (privacyPassed : Bool) : List Text → Option Text
  | [] => none
  | line :: rest =>
    let privacyPassed := privacyPassed || line = units "PRIVACY GATE: PASS"
    if line = units "pre-push: privacy" ∧ privacyPassed = true then unfinishedPhase privacyPassed rest
    else
      match (after? (units "pre-push: ") line).filter (fun phase =>
        1 ≤ phase.length && phase.length ≤ 60 && phaseName phase = phase) with
      | some phase => some phase
      | none => unfinishedPhase privacyPassed rest

def publicationFailurePhase (failure : Failure) : Option Text :=
  let lines := trimmedLines failure.outputTail
  if lines.any publicationPrivacyRefusal then some (units "privacy")
  else
    match (lines.filterMap failedPhase).getLast? with
    | some phase => some phase
    | none =>
      if TRANSPORT_ADMITTED ∈ lines ∨ (publicationRemoteRefusalLine failure.outputTail).isSome then none
      else unfinishedPhase false lines.reverse

def publicationEnvironmentFailure (error : Text) (failure : Option Failure) : Bool :=
  (units "stage environment:").isPrefixOf error ||
    failure.any fun failure => failure.step = units "preparing publication dependencies"

def publicationRemoteRefusal (failure : Option Failure) : Bool :=
  failure.any fun failure =>
    failure.step = units "publishing the pipeline branch" && !failure.retryableApp403 && !failure.retryableDeadline &&
      (publicationFailurePhase failure).isNone &&
      (decide (TRANSPORT_ADMITTED ∈ trimmedLines failure.outputTail) ||
        (publicationRemoteRefusalLine failure.outputTail).isSome)

/-! ### Recoveries -/

inductive Cause
  | infrastructureDeadline
  | interrupted
  | checkFailure
  | appGit403
  | environment
  | remoteRefusal
deriving DecidableEq

/-- One failed operation. -/
structure Entry where
  operationId : Text
  epoch : Int
  «at» : Text
  cause : Cause
  detail : Text
  retryAt : Option Text
deriving DecidableEq

structure Recovery where
  sha : Text
  failures : Int
  totalAttempts : Int
  app403Since : Option Text
  history : List Entry

abbrev Heads := Entries Text Recovery

structure JournalEntry where
  kind : Text
  reason : Text
  «at» : Text

structure Operation where
  id : Text
  sha : Text
  result : Option Result
  executorResult : Option Result

/-- A pipeline whose delivery has an operation. -/
structure Pipeline where
  publicationRecovery : Option Heads
  operation : Operation
  journal : List JournalEntry

/-- `publicationRetry` of an attempt. -/
structure PublicationRetry where
  sha : Text
  operationId : Text
  failures : Int
  retryAt : Text
  exhausted : Bool

structure FailureInput where
  operationId : Text
  epoch : Int
  «at» : Text
  cause : Cause
  detail : Text
  recoverable : Bool

/-- `Date.parse`, and `new Date(ms).toISOString()`, which throws beyond the range of dates. -/
structure Dates where
  parse : Text → Option Int
  iso : Int → Option Text

def HISTORY_LIMIT : ℕ := 64

def PUBLICATION_RETRY_DELAYS_MS : List Int := [60000, 300000, 900000]

def APP_PUSH_RETRY_WINDOW_MS : Int := 3600000

def MAX_SAFE_INTEGER : Int := 9007199254740991

def isSafeInteger (n : Int) : Bool := -MAX_SAFE_INTEGER ≤ n && n ≤ MAX_SAFE_INTEGER

/-- `[a, b].filter(at => !!at).sort()[0]`. -/
def earliest (a b : Option Text) : Option Text :=
  (([a, b].reduceOption.filter (· ≠ [])).mergeSort fun a b => decide (a ≤ b)).head?

/-! ### One failure -/

section Record

variable (pipeline : Pipeline) (publicationRetry : Option PublicationRetry) (input : FailureInput)

/-- The record of the attempt, if it is about the head of the operation. -/
def legacy : Option PublicationRetry :=
  publicationRetry.filter fun retry => retry.sha = pipeline.operation.sha

def sameLegacy : Bool :=
  (legacy pipeline publicationRetry).any fun retry => retry.operationId = pipeline.operation.id

def inheritedFailures : Int :=
  (legacy pipeline publicationRetry).elim 0 fun retry => retry.failures + if retry.exhausted then 1 else 0

/-- `heads[operation.sha] ??= ...`. -/
def startRecovery : Recovery :=
  ((pipeline.publicationRecovery.getD Table.empty).at? pipeline.operation.sha).getD
    { sha := pipeline.operation.sha
      failures := inheritedFailures pipeline publicationRetry
      totalAttempts := max 0 (inheritedFailures pipeline publicationRetry -
        if sameLegacy pipeline publicationRetry then 1 else 0)
      app403Since := none
      history := [] }

def resultOf (operation : Operation) : Option Result := operation.result <|> operation.executorResult

def causeOf : Cause :=
  match resultOf pipeline.operation with
  | some (.refused error failure) =>
    if publicationEnvironmentFailure error failure ∨ (units "stage environment:").isPrefixOf input.detail then .environment
    else if input.cause = .checkFailure ∧ publicationRemoteRefusal failure then .remoteRefusal
    else input.cause
  | _ => if (units "stage environment:").isPrefixOf input.detail then .environment else input.cause

/-- The line by which the remote refused, when that is the cause. -/
def remoteLine : Option Text :=
  match resultOf pipeline.operation with
  | some (.refused _ (some failure)) =>
    if causeOf pipeline input = .remoteRefusal then publicationRemoteRefusalLine failure.outputTail else none
  | _ => none

def detailOf : Text :=
  match remoteLine pipeline input with
  | some line => (units "remote publication was refused; underlying cause is unknown: " ++ line).take 400
  | none => input.detail

/-- When the refusal was observed. -/
def observedAt : Text :=
  match resultOf pipeline.operation with
  | some (.refused error failure) =>
    ((failure.bind Failure.observedAt) <|>
      ((pipeline.journal.filter fun entry => entry.kind = units "recovery" &&
        entry.reason = units "publication refused: " ++ error).getLast?.map JournalEntry.at)).getD input.at
  | _ => input.at

def app403SinceOf : Option Text :=
  let recovery := startRecovery pipeline publicationRetry
  if input.cause = .appGit403 then earliest recovery.app403Since (some (observedAt pipeline input))
  else recovery.app403Since

/-- The legacy record of this operation had used up its delays. -/
def exhaustedLegacy : Bool :=
  sameLegacy pipeline publicationRetry && (legacy pipeline publicationRetry).any PublicationRetry.exhausted

def failuresOf (delays : List Int) : Int :=
  let recovery := startRecovery pipeline publicationRetry
  let failures := recovery.failures + if input.recoverable && !sameLegacy pipeline publicationRetry then 1 else 0
  if exhaustedLegacy pipeline publicationRetry then max failures (delays.length + 1) else failures

variable (dates : Dates)

/-- The retry time of the delays; the outer `none` is a thrown `RangeError`. -/
def delayedRetry (delays : List Int) : Option (Option Text) :=
  let failures := failuresOf pipeline publicationRetry input delays
  match (legacy pipeline publicationRetry).filter fun _ =>
    sameLegacy pipeline publicationRetry && !exhaustedLegacy pipeline publicationRetry with
  | some retry => some (some retry.retryAt)
  | none =>
    if input.recoverable ∧ failures ≤ delays.length then
      match delays[(max 0 (failures - 1)).toNat]? with
      | some delay => ((dates.parse input.at).bind fun ms => dates.iso (ms + delay)).map some
      | none => some none
    else some none

/-- The retry time inside the window of the App push. -/
def app403Retry : Option (Option Text) :=
  let count := ((startRecovery pipeline publicationRetry).history.filter fun entry => entry.cause = .appGit403).length
  let delay := (PUBLICATION_RETRY_DELAYS_MS[min count (PUBLICATION_RETRY_DELAYS_MS.length - 1)]?).getD 0
  match (app403SinceOf pipeline publicationRetry input).bind dates.parse, dates.parse input.at with
  | some since, some ms =>
    if since + APP_PUSH_RETRY_WINDOW_MS ≤ ms then some none
    else (dates.iso (min (since + APP_PUSH_RETRY_WINDOW_MS) (ms + delay))).map some
  | _, _ => none

def retryAtOf (delays : List Int) : Option (Option Text) :=
  (delayedRetry pipeline publicationRetry input dates delays).bind fun retryAt =>
    if input.cause = .appGit403 ∧ input.recoverable then app403Retry pipeline publicationRetry input dates
    else some retryAt

inductive Thrown
  | shortHead
  | invalidTime

/-- What a thrown error leaves is in the pipeline all the same. -/
def recordPublicationFailure (delays : List Int) : Pipeline × Except Thrown Entry :=
  let sha := pipeline.operation.sha
  if ¬fullHead sha then (pipeline, .error .shortHead)
  else
    let heads := pipeline.publicationRecovery.getD Table.empty
    let recovery := startRecovery pipeline publicationRetry
    let put (recovery : Recovery) := { pipeline with publicationRecovery := some (heads.set (sha, recovery)) }
    match recovery.history.find? fun entry => entry.operationId = pipeline.operation.id with
    | some recorded => (put recovery, .ok recorded)
    | none =>
      let recovery := { recovery with
        app403Since := app403SinceOf pipeline publicationRetry input
        failures := failuresOf pipeline publicationRetry input delays }
      match retryAtOf pipeline publicationRetry input dates delays with
      | none => (put recovery, .error .invalidTime)
      | some retryAt =>
        let record : Entry := ⟨input.operationId, input.epoch, input.at, causeOf pipeline input,
          detailOf pipeline input, retryAt⟩
        (put { recovery with
          totalAttempts := recovery.totalAttempts + 1
          history := (recovery.history ++ [record]).rtake HISTORY_LIMIT }, .ok record)

end Record

/-! ### Merges -/

variable (localeCompare : Text → Text → Int)

/-- `a.epoch - b.epoch || a.at.localeCompare(b.at)`. -/
def entryOrder (a b : Entry) : Int :=
  if a.epoch - b.epoch ≠ 0 then a.epoch - b.epoch else localeCompare a.at b.at

/-- `new Map(entries.map(entry => [entry.operationId, entry])).values()`. -/
def byOperation (entries : List Entry) : List Entry :=
  (Table.ofList (entries.map fun entry => (entry.operationId, entry)) : Entries Text Entry).rows.map Prod.snd

/-- The rows of one head. -/
def mergeRows (sha : Text) (old row : Recovery) : Recovery :=
  let entries := byOperation (old.history ++ row.history)
  { sha := sha
    failures := max old.failures row.failures
    totalAttempts := max (max old.totalAttempts row.totalAttempts) entries.length
    app403Since := earliest old.app403Since row.app403Since
    history := (entries.mergeSort fun a b => entryOrder localeCompare a b ≤ 0).rtake HISTORY_LIMIT }

/-- One head of the current histories. -/
def mergeHead (merged : Heads) (head : Text × Recovery) : Heads :=
  match merged.at? head.1 with
  | none => merged.set head
  | some old => merged.set (head.1, mergeRows localeCompare head.1 old head.2)

def mergePublicationRecovery (previous current : Option Heads) : Option Heads :=
  if previous.isNone && current.isNone then none
  else some ((current.getD Table.empty).rows.foldl (mergeHead localeCompare) (previous.getD Table.empty))

/-! ### Validity -/

variable (dates : Dates)

def isEntry (entry : Entry) : Bool :=
  entry.operationId ≠ [] && isSafeInteger entry.epoch && 0 < entry.epoch && (dates.parse entry.at).isSome &&
    entry.detail.length ≤ 400 && entry.retryAt.all fun retryAt => (dates.parse retryAt).isSome

def isRecovery (sha : Text) (row : Recovery) : Bool :=
  fullHead sha && row.sha = sha && isSafeInteger row.failures && 0 ≤ row.failures &&
    (row.app403Since.all fun since => (dates.parse since).isSome) &&
    isSafeInteger row.totalAttempts && row.history.length ≤ HISTORY_LIMIT &&
    row.failures ≤ row.totalAttempts && row.history.length ≤ row.totalAttempts &&
    (row.history.map Entry.operationId).dedup.length = row.history.length && row.history.all (isEntry dates)

def isPublicationRecovery (value : Option Heads) : Bool :=
  value.all fun heads => heads.rows.all fun head => isRecovery dates head.1 head.2

end Delegatus.Publication
