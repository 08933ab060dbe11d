import Delegatus.EventLedgerTails

/-!
# The newest turn of a ledger

`readHostTurnRecord` reads a ledger from its end in chunks and visits its records from the newest to
the oldest, until it has the start of the newest turn and enough frames from before it.  A chunk
boundary may fall anywhere, so what stands before a chunk's first newline is carried to the next.
`scanHostTurnRecord` visits the records of the file, cut at its newlines, and both answer alike.
-/

namespace Delegatus.EventLedger

open JsonText (Text Json units)
open Utf8Decoding (NEWLINE decode)

/-! ### Visiting a record -/

inductive FrameType
  | user
  | assistant

/-- A transcript frame the host recorded. -/
structure HostTurnFrame where
  uuid : Text
  type : FrameType
  turnId : Option Text
  timestamp : Option Text

inductive NewerItem
  | frame (frame : HostTurnFrame)
  | turnEnded (seq : Int) (turnId status : Text)
  | sessionStatus (seq : Int)

/-- What the visits have found, the lists newest first. -/
structure Scan where
  newer : List NewerItem := []
  olderFrames : List HostTurnFrame := []
  started : Option Text := none
  malformed : Option String := none
  expectedSeq : Option Int := none
  lastSeq : Int := 0
  lastActivitySeq : Int := 0
  latestStatus : Option (Text × Int) := none

def stringOf : Option Json → Option Text
  | some (.string text) => some text
  | _ => none

def frameTypeOf (value : Option Json) : Option FrameType :=
  if value = some (.string (units "user")) then some .user
  else if value = some (.string (units "assistant")) then some .assistant
  else none

/-- The frame of an `item` event, where it holds one. -/
def frameOf (members : Members) : Option HostTurnFrame :=
  match field members "item" with
  | some (.object item) =>
      match stringOf (field item "uuid"), frameTypeOf (field item "type") with
      | some uuid, some type =>
          some
            { uuid
              type
              turnId := stringOf (field members "turnId")
              timestamp := stringOf (field item "timestamp") }
      | _, _ => none
  | _ => none

section

variable (checks : EventChecks)

/-- Every record carries the sequence one below the record after it. -/
def sequenced (scan : Scan) (seq : Option Int) : Except String Scan :=
  match seq with
  | none =>
      .error <| match scan.expectedSeq with
        | none => "the host ledger holds a record with no sequence"
        | some expected => "the host ledger's sequence breaks before " ++ toString (expected + 1)
  | some seq =>
      match scan.expectedSeq with
      | some expected =>
          if seq ≠ expected then
            .error ("the host ledger's sequence breaks before " ++ toString (expected + 1))
          else
            .ok
              { scan with
                lastSeq := if scan.lastSeq = 0 then seq else scan.lastSeq
                expectedSeq := some (seq - 1) }
      | none =>
          .ok
            { scan with
              lastSeq := if scan.lastSeq = 0 then seq else scan.lastSeq
              expectedSeq := some (seq - 1) }

/-- Status, limits and attention cleanup are no activity. -/
def isActivity : EventKind → Bool
  | .sessionStatus => false
  | .limits => false
  | .attentionResolved => false
  | _ => true

def withFrame (scan : Scan) (frame : HostTurnFrame) : Scan :=
  if scan.started = none then { scan with newer := scan.newer ++ [.frame frame] }
  else { scan with olderFrames := scan.olderFrames ++ [frame] }

/-- A record before the newest turn's start was found. -/
def visitNewer (scan : Scan) (members : Members) (seq : Int) : EventKind → Scan
  | .turnStarted =>
      match stringOf (field members "turnId") with
      | none => { scan with malformed := some "the host ledger holds a turn start that names no turn" }
      | some turnId =>
          if turnId = [] then
            { scan with malformed := some "the host ledger holds a turn start that names no turn" }
          else { scan with started := some turnId }
  | .turnEnded =>
      if isOneOf (field members "status") ["completed", "interrupted", "error"] = true then
        match stringOf (field members "turnId") with
        | some turnId =>
            { scan with newer := scan.newer ++ [.turnEnded seq turnId (textOf (field members "status"))] }
        | none => { scan with malformed := some "the host ledger holds a turn end it cannot name" }
      else { scan with malformed := some "the host ledger holds a turn end it cannot name" }
  | .sessionStatus =>
      if isOneOf (field members "status") ["dead", "unhosted"] = true then
        { scan with newer := scan.newer ++ [.sessionStatus seq] }
      else scan
  | _ => scan

def visitEvent (scan : Scan) (members : Members) (seq : Int) (kind : EventKind) : Scan :=
  let scan :=
    if scan.lastActivitySeq = 0 ∧ isActivity kind = true then { scan with lastActivitySeq := seq }
    else scan
  if kind = .delta then scan
  else
    let scan :=
      if kind = .sessionStatus ∧ scan.latestStatus = none then
        { scan with latestStatus := some (textOf (field members "status"), seq) }
      else scan
    if kind = .item then
      match frameOf members with
      | none => scan
      | some frame => withFrame scan frame
    else if scan.started ≠ none then scan
    else visitNewer scan members seq kind

def visit (scan : Scan) (line : Text) : Scan :=
  match JsonText.parse line with
  | some (.object members) =>
      if validEvent checks (.object members) = false then
        { scan with malformed := some "the host ledger holds an invalid event" }
      else
        match sequenced scan (seqOf checks (.object members)) with
        | .error reason => { scan with malformed := some reason }
        | .ok scan =>
            match seqOf checks (.object members), kindOf members with
            | some seq, some kind => visitEvent scan members seq kind
            | _, _ => scan
  | _ => { scan with malformed := some "the host ledger holds a record that is not JSON" }

variable (framesBefore : Nat)

def enough (scan : Scan) : Bool := scan.started.isSome && framesBefore ≤ scan.olderFrames.length

/-- The inner loop, over records from the newest on. -/
def visitLines (scan : Scan) : List Text → Scan
  | [] => scan
  | line :: rest =>
      if scan.malformed ≠ none then scan
      else
        let scan :=
          if line = [] then { scan with malformed := some "the host ledger holds an empty record" }
          else visit checks scan line
        if enough framesBefore scan = true then scan else visitLines scan rest

/-! ### Reading backwards -/

structure Cursor where
  position : Nat
  carry : List UInt8 := []
  newest : Bool := true
  complete : Bool := true
  scan : Scan := {}

/-- The data's records are visited; what follows its last newline is no record. -/
def visitData (cursor : Cursor) (data : List UInt8) : Cursor :=
  let lines := (decode data).splitOn 10
  let torn := lines.getLastD []
  let scan :=
    if cursor.newest = false ∧ torn ≠ [] then
      { cursor.scan with malformed := some "the host ledger could not be split into records" }
    else cursor.scan
  { cursor with
    newest := false
    complete := cursor.complete && !(cursor.newest && torn ≠ [])
    scan := visitLines checks framesBefore scan lines.dropLast.reverse }

/-- One pass of the outer loop. -/
def readChunk (bytes : List UInt8) (step : Nat) (cursor : Cursor) : Cursor :=
  let length := min step cursor.position
  let start := cursor.position - length
  let data := (bytes.drop start).take length ++ cursor.carry
  if start = 0 then
    { visitData checks framesBefore cursor data with position := 0, carry := [] }
  else
    match data.idxOf? NEWLINE with
    | none => { cursor with position := start, carry := data }
    | some firstNewline =>
        { visitData checks framesBefore cursor (data.drop (firstNewline + 1)) with
          position := start
          carry := data.take (firstNewline + 1) }

theorem position_readChunk (bytes : List UInt8) (step : Nat) (cursor : Cursor) :
    (readChunk checks framesBefore bytes step cursor).position =
      cursor.position - min step cursor.position := by
  unfold readChunk
  dsimp only
  split
  · rename_i hstart
    exact hstart.symm
  · split
    · rfl
    · rfl

/-- The outer loop; a `step` of zero would read nothing for ever. -/
def readBack (bytes : List UInt8) (step : Nat) (cursor : Cursor) : Cursor :=
  if cursor.scan.malformed ≠ none ∨ enough framesBefore cursor.scan = true ∨
      min step cursor.position = 0 then cursor
  else readBack bytes step (readChunk checks framesBefore bytes step cursor)
termination_by cursor.position
decreasing_by
  rw [position_readChunk]
  omega

end

/-! ### The answer -/

structure LedgerIdentity where
  dev : Int
  ino : Int
  size : Int
  mtimeMs : Int
  ctimeMs : Int
deriving DecidableEq

/-- The stats of the descriptor before and after the read, and of the path (`none`: it is gone). -/
structure Observed where
  before : LedgerIdentity
  after : LedgerIdentity
  onPath : Option LedgerIdentity

structure Closing where
  bySession : Bool
  status : Option Text
  seq : Int

structure Turn where
  turnId : Text
  closed : Option Closing

structure TurnReading where
  identity : LedgerIdentity
  mtimeMs : Int
  lastSeq : Int
  lastActivitySeq : Int
  complete : Bool
  latestStatus : Option (Text × Int)
  turn : Option Turn
  framesBefore : List HostTurnFrame
  framesAfter : List HostTurnFrame

inductive HostTurnRecord
  | absent
  | unreadable (reason : String)
  | read (reading : TurnReading)

def framesOf (items : List NewerItem) : List HostTurnFrame :=
  items.filterMap fun
    | .frame frame => some frame
    | _ => none

def closes (turnId : Text) : NewerItem → Bool
  | .frame _ => false
  | .turnEnded _ ended _ => ended = turnId
  | .sessionStatus _ => true

def closingOf : NewerItem → Option Closing
  | .frame _ => none
  | .turnEnded seq _ status => some ⟨false, some status, seq⟩
  | .sessionStatus seq => some ⟨true, none, seq⟩

/-- The answer once the loop is through. -/
def answer (observed : Observed) (complete : Bool) (scan : Scan) : HostTurnRecord :=
  match observed.onPath with
  | none => .unreadable "the host ledger was replaced under the read"
  | some onPath =>
      if observed.before ≠ observed.after ∨ observed.after ≠ onPath then
        .unreadable "the host ledger moved under the read"
      else
        match scan.malformed with
        | some reason => .unreadable reason
        | none =>
            let newer := scan.newer.reverse
            let olderFrames := scan.olderFrames.reverse
            let reading : TurnReading :=
              { identity := observed.before
                mtimeMs := observed.before.mtimeMs
                lastSeq := scan.lastSeq
                lastActivitySeq := scan.lastActivitySeq
                complete
                latestStatus := scan.latestStatus
                turn := none
                framesBefore := framesOf newer
                framesAfter := [] }
            match scan.started with
            | none => .read reading
            | some turnId =>
                match newer.findIdx? (closes turnId) with
                | none =>
                    .read
                      { reading with
                        turn := some ⟨turnId, none⟩
                        framesBefore := olderFrames
                        framesAfter := framesOf newer }
                | some closedAt =>
                    .read
                      { reading with
                        turn := some ⟨turnId, newer[closedAt]?.bind closingOf⟩
                        framesBefore := olderFrames ++ framesOf (newer.take closedAt)
                        framesAfter := framesOf (newer.drop (closedAt + 1)) }

def HOST_TURN_RECORD_STEP_BYTES : Nat := 1024 * 1024

def HOST_TURN_RECORD_FRAMES_BEFORE : Nat := 256

section

variable (checks : EventChecks)

/-- The read in chunks of `step` bytes that stops at `framesBefore` older frames. -/
def readInSteps (step framesBefore : Nat) (observed : Observed) : Option (List UInt8) → HostTurnRecord
  | none => .absent
  | some bytes =>
      let cursor := readBack checks framesBefore bytes step { position := bytes.length }
      answer observed cursor.complete cursor.scan

def readHostTurnRecord (frames : Bool) (observed : Observed) : Option (List UInt8) → HostTurnRecord :=
  readInSteps checks HOST_TURN_RECORD_STEP_BYTES
    (if frames then HOST_TURN_RECORD_FRAMES_BEFORE else 0) observed

/-- The records of a ledger: what its newlines end. -/
def recordsOf (bytes : List UInt8) : List (List UInt8) := (bytes.splitOn NEWLINE).dropLast

/-- The same answer from the records of the whole file, visited from the newest on. -/
def scanHostTurnRecord (framesBefore : Nat) (observed : Observed) : Option (List UInt8) → HostTurnRecord
  | none => .absent
  | some bytes =>
      answer observed (lastLine bytes = [])
        (visitLines checks framesBefore {} ((recordsOf bytes).reverse.map decode))

end

end Delegatus.EventLedger
