import Delegatus.Refusals
import Delegatus.Utf8Decoding

/-!
# The event ledger of a hosted thread

A ledger is a file with one event a line.  `load` replays it from the first line to the last, and
`durableRuntimeEventTailSeq` reads only its last record, looking for newlines from the end of the
file in steps.
-/

namespace Delegatus.EventLedger

open JsonText (Text Json units)
open Utf8Decoding (NEWLINE decode)

/-! ### Events -/

abbrev Members := List (Text × Json)

/-- A field of a parsed object: of two members with one name the last counts. -/
def field (members : Members) (name : String) : Option Json :=
  (members.reverse.find? fun member => member.1 = units name).map Prod.snd

/-- What the checks of an event take from elsewhere: the value of a number's text where
`Number.isSafeInteger` holds, whether a delivery is a ready chunk of the turn that equals its normal
form, and the check of a receipt. -/
structure EventChecks where
  safeInteger : Text → Option Int
  readyChunk : Option Json → Text → Bool
  validCodexRequestReceipt : Json → Bool

inductive EventKind
  | nativeQueueChanged
  | turnStarted
  | delta
  | item
  | voiceTranscript
  | voiceChunk
  | turnEnded
  | attention
  | attentionResolved
  | limits
  | realtimeDeliveryProgress
  | realtimeDeliveryAcknowledged
  | sessionStatus
deriving DecidableEq

def EventKind.text : EventKind → String
  | .nativeQueueChanged => "native-queue-changed"
  | .turnStarted => "turn-started"
  | .delta => "delta"
  | .item => "item"
  | .voiceTranscript => "voice-transcript"
  | .voiceChunk => "voice-chunk"
  | .turnEnded => "turn-ended"
  | .attention => "attention"
  | .attentionResolved => "attention-resolved"
  | .limits => "limits"
  | .realtimeDeliveryProgress => "realtime-delivery-progress"
  | .realtimeDeliveryAcknowledged => "realtime-delivery-acknowledged"
  | .sessionStatus => "session-status"

def eventKinds : List EventKind :=
  [.nativeQueueChanged, .turnStarted, .delta, .item, .voiceTranscript, .voiceChunk, .turnEnded,
    .attention, .attentionResolved, .limits, .realtimeDeliveryProgress,
    .realtimeDeliveryAcknowledged, .sessionStatus]

def kindOf (members : Members) : Option EventKind :=
  eventKinds.find? fun kind => field members "kind" = some (.string (units kind.text))

def nonEmptyString : Option Json → Bool
  | some (.string text) => text ≠ []
  | _ => false

def isString : Option Json → Bool
  | some (.string _) => true
  | _ => false

def isBoolean : Option Json → Bool
  | some (.bool _) => true
  | _ => false

def isOneOf (value : Option Json) (texts : List String) : Bool :=
  texts.any fun text => value = some (.string (units text))

section

variable (checks : EventChecks)

def safeIntegerOf : Option Json → Option Int
  | some (.number literal) => checks.safeInteger literal
  | _ => none

def isIndex (value : Option Json) : Bool := (safeIntegerOf checks value).any fun n => 0 ≤ n

def validReceipt (value : Option Json) : Bool := value.all checks.validCodexRequestReceipt

/-- The text of a field that holds one. -/
def textOf : Option Json → Text
  | some (.string text) => text
  | _ => []

def validKind (members : Members) : EventKind → Bool
  | .nativeQueueChanged =>
      nonEmptyString (field members "threadId") &&
        (field members "evidenceRejectedFor" = none ||
          nonEmptyString (field members "evidenceRejectedFor"))
  | .turnStarted => nonEmptyString (field members "turnId")
  | .delta => nonEmptyString (field members "turnId") && isString (field members "text")
  | .item =>
      (nonEmptyString (field members "turnId") || field members "turnId" = some .null) &&
        isOneOf (field members "phase") ["started", "completed"] && (field members "item").isSome
  | .voiceTranscript =>
      nonEmptyString (field members "segmentId") &&
        isOneOf (field members "role") ["user", "assistant"] && isString (field members "text") &&
        isBoolean (field members "final") && isString (field members "realtimeSessionId")
  | .voiceChunk =>
      nonEmptyString (field members "turnId") &&
        checks.readyChunk (field members "delivery") (textOf (field members "turnId"))
  | .turnEnded =>
      nonEmptyString (field members "turnId") &&
        isOneOf (field members "status") ["completed", "interrupted", "error"]
  | .attention =>
      nonEmptyString (field members "id") && nonEmptyString (field members "method") &&
        (field members "attention").isSome && validReceipt checks (field members "codexReceipt")
  | .attentionResolved =>
      validReceipt checks (field members "codexReceipt") && nonEmptyString (field members "id") &&
        isOneOf (field members "resolution")
          ["answered", "host-restarted", "server-resolved", "turn-ended"]
  | .limits => (field members "snapshot").isSome
  | .realtimeDeliveryProgress =>
      nonEmptyString (field members "deliveryId") && nonEmptyString (field members "digest") &&
        isIndex checks (field members "responseIndex") && isIndex checks (field members "offset")
  | .realtimeDeliveryAcknowledged =>
      nonEmptyString (field members "deliveryId") && nonEmptyString (field members "digest")
  | .sessionStatus =>
      isOneOf (field members "status") ["active", "idle", "unhosted", "dead"] &&
        match field members "activeFlags" with
        | none => true
        | some (.array flags) => flags.all fun flag => nonEmptyString (some flag)
        | some _ => false

/-- `Number.isSafeInteger(value.seq) && value.seq > 0`, and the number. -/
def seqOf : Json → Option Int
  | .object members => (safeIntegerOf checks (field members "seq")).filter fun seq => 0 < seq
  | _ => none

def validEvent (value : Json) : Bool :=
  match value with
  | .object members =>
      (seqOf checks value).isSome && (kindOf members).any fun kind => validKind checks members kind
  | _ => false

/-- A parsed value that passed `validEvent`. -/
def RuntimeEvent : Type := { value : Json // validEvent checks value = true }

variable {checks}

theorem seqOf_isSome {value : Json} (h : validEvent checks value = true) :
    (seqOf checks value).isSome = true := by
  unfold validEvent at h
  split at h
  · rw [Bool.and_eq_true] at h
    exact h.1
  · exact nomatch h

def RuntimeEvent.seq (event : RuntimeEvent checks) : Int :=
  (seqOf checks event.1).get (seqOf_isSome event.2)

theorem seqOf_event (event : RuntimeEvent checks) : seqOf checks event.1 = some event.seq :=
  (Option.some_get _).symm

theorem seq_pos (event : RuntimeEvent checks) : 0 < event.seq := by
  have h := seqOf_event event
  unfold seqOf at h
  split at h
  · rw [Option.filter_eq_some_iff] at h
    exact of_decide_eq_true h.2
  · exact nomatch h

variable (checks)

/-! ### Loading -/

/-- `JSON.parse(line)` and `validEvent`; the text says why the line is no event. -/
def readEvent (line : Text) : Except String (RuntimeEvent checks) :=
  match JsonText.parse line with
  | none => .error "runtime event ledger contains malformed JSON"
  | some parsed =>
      if h : validEvent checks parsed = true then .ok ⟨parsed, h⟩
      else .error "runtime event ledger contains an invalid event"

/-- The next event after those read. -/
def pushEvent (events : List (RuntimeEvent checks)) (event : RuntimeEvent checks) :
    Except String (List (RuntimeEvent checks)) :=
  match events.getLast? with
  | none => .ok (events ++ [event])
  | some previous =>
      if event.seq ≠ previous.seq + 1 then
        .error ("runtime event ledger sequence gap after " ++ toString previous.seq)
      else .ok (events ++ [event])

/-- The loop over the lines; `terminated` says that the text ends with a newline. -/
def loadLines (terminated : Bool) (events : List (RuntimeEvent checks)) :
    List Text → Except String (List (RuntimeEvent checks))
  | [] => .ok events
  | line :: rest =>
      if line = [] ∧ rest = [] ∧ terminated = true then loadLines terminated events rest
      else if line = [] then .error "runtime event ledger contains an empty record"
      else
        match readEvent checks line with
        | .error reason =>
            -- The last line without its newline is a write the crash cut short.
            if rest = [] ∧ terminated = false then .ok events else .error reason
        | .ok event =>
            match pushEvent checks events event with
            | .error reason => .error reason
            | .ok events => loadLines terminated events rest

/-- `load` on the bytes of the file; `none` stands for no file. -/
def load : Option (List UInt8) → Except String (List (RuntimeEvent checks))
  | none => .ok []
  | some bytes =>
      let contents := decode bytes
      loadLines checks (contents.getLast? = some 10) [] (contents.splitOn 10)

/-! ### The last record -/

inductive Determinable (α : Type)
  | determined (value : α)
  | undetermined (reason : String)

def EVENT_TAIL_STEP_BYTES : Nat := 64 * 1024

def EVENT_TAIL_MAX_RECORD_BYTES : Nat := 32 * 1024 * 1024

/-- `buffer.lastIndexOf(0x0a)`. -/
def lastNewline : List UInt8 → Option Nat
  | [] => none
  | byte :: bytes =>
      match lastNewline bytes with
      | some index => some (index + 1)
      | none => if byte = NEWLINE then some 0 else none

/-- The place of the last newline before `position`, looked for in steps of `buffer` bytes. -/
def lastNewlineBefore (bytes : List UInt8) (buffer position : Nat) : Option Nat :=
  let length := min buffer position
  if _h : length = 0 then none
  else
    let start := position - length
    match lastNewline ((bytes.drop start).take length) with
    | some index => some (start + index)
    | none => lastNewlineBefore bytes buffer start
termination_by position
decreasing_by omega

/-- `lastNewlineBefore(..) + 1`, where no newline is `-1`. -/
def afterNewline : Option Nat → Nat
  | some index => index + 1
  | none => 0

def durableRuntimeEventTailSeq : Option (List UInt8) → Determinable Int
  | none => .determined 0
  | some bytes =>
      let size := bytes.length
      if size = 0 then .determined 0
      else
        let buffer := min EVENT_TAIL_STEP_BYTES size
        match lastNewlineBefore bytes buffer size with
        | none => .determined 0
        | some terminator =>
            let start := afterNewline (lastNewlineBefore bytes buffer terminator)
            let length := terminator - start
            if length = 0 then
              .undetermined "the runtime event ledger ends with an empty record"
            else if EVENT_TAIL_MAX_RECORD_BYTES < length then
              .undetermined ("the runtime event ledger's final record is " ++ toString length ++ " bytes")
            else
              match JsonText.parse (decode ((bytes.drop start).take length)) with
              | none => .undetermined "the runtime event ledger's final record is not JSON"
              | some parsed =>
                  match seqOf checks parsed with
                  | some seq => .determined seq
                  | none => .undetermined "the runtime event ledger's final record carries no sequence"

end

end Delegatus.EventLedger
