import Delegatus.SeatMessages

/-!
# The inbox of seat messages

The inbound half of the seat-message store.  `acceptSeatMessages` records the messages and the
acknowledgements of a peer's part, `seatMessagesPart` builds the part that goes back, and
`drainSeatMessages` delivers what was received: it claims a row under a process lease, settles it with
the outcome of the delivery, and prunes rows that outlived the replay window.

A drain waits for its delivery, so its transactions are steps of their own; what they compare with
the row they read is an argument of the step.  The SHA-256 digest of a message, its byte sizes and
the frozen author line are the parameters of `Context`.
-/

namespace Delegatus.SeatInbox

open SeatMessages (Ack AckState Direction RowState SeatMessageRefusal DAY seatMessageTextValid)

/-! ### Messages -/

/-- What the checks read of a field of a message. -/
inductive Value where
  | text (text : String)
  | integer (value : Int)
  | other

/-- A message of a part: its id, which the envelope has checked, and its other members. -/
structure Message where
  id : String
  members : List (String × Value)

def Message.field (message : Message) (name : String) : Option Value :=
  (message.members.find? fun held => held.1 = name).map Prod.snd

structure SeatMessage where
  p : String
  «at» : Int
  k : String
  t : String

def MAX_SAFE_INTEGER : Int := 9007199254740991

def isLowerHex (c : Char) : Bool := ('0' ≤ c && c ≤ '9') || ('a' ≤ c && c ≤ 'f')

/-- `/^repo-[0-9a-f]{32}$/`. -/
def isProjectKey (p : String) : Bool :=
  p.toList.take 5 = "repo-".toList && p.length = 37 && (p.toList.drop 5).all isLowerHex

/-- `/^[0-9a-f]{16}$/`. -/
def isShortHash (k : String) : Bool := k.length = 16 && k.toList.all isLowerHex

/-- `validMessage`: the fields of a message that passes the checks. -/
def validMessage (message : Message) (projects : List String) : Option SeatMessage :=
  if message.members.all fun held => held.1 ∈ ["p", "at", "k", "t"] then
    match message.field "p", message.field "at", message.field "k", message.field "t" with
    | some (.text p), some (.integer time), some (.text k), some (.text t) =>
      if p ∈ projects ∧ isProjectKey p ∧ 0 ≤ time ∧ time ≤ MAX_SAFE_INTEGER ∧ isShortHash k ∧
          seatMessageTextValid t then
        some ⟨p, time, k, t⟩
      else none
    | _, _, _, _ => none
  else none

structure SeatMessagePart where
  out : List Message
  ack : List Ack

/-! ### Rows -/

structure Lease where
  pid : Int
  identity : Option String
  token : String
  deriving DecidableEq

/-- A stored row of either direction. -/
structure Row extends SeatMessages.Row where
  ackPending : Bool
  sentAt : Option Int
  receivedAt : Option Int
  prelude : Option String
  code : Option String
  operationId : Option String
  lease : Option Lease
  deriving DecidableEq

abbrev Rows := Table (fun row : Row => row.key)

def Row.settled (row : Row) : Bool := row.st = some .accepted || row.st = some .refused

/-- A link with its current connection key.  An install id is checked when the link is made. -/
structure LinkedPeer where
  install : String
  connection : String
  projects : List String
  installId : (install.toList.all fun c => isLowerHex c || c = '-') = true

/-- `in:${install}:${id}`. -/
def inKey (install id : String) : String := "in:" ++ install ++ ":" ++ id

/-- The digest of a message, the author line of a project, and the size of a part with the messages
of the given rows. -/
structure Context where
  digest : Message → String
  prelude : LinkedPeer → String → String
  partBytes : List Row → Nat

section Calls

variable (context : Context)

/-! ### `acceptSeatMessages` -/

/-- The code that a message is refused with. -/
def refusalCode (now : Int) : Option SeatMessage → Option String
  | none => some "malformed"
  | some message =>
    if now - message.at > 30 * DAY then some "expired"
    else if message.at > now + 3600000 then some "malformed"
    else none

def insertedRow (link : LinkedPeer) (now : Int) (message : Message) : Row :=
  let fields := validMessage message link.projects
  let code := refusalCode now fields
  { key := inKey link.install message.id
    dir := .in
    id := message.id
    link := link.install
    connection := link.connection
    p := (fields.map SeatMessage.p).getD ""
    «at» := (fields.map SeatMessage.at).getD now
    k := (fields.map SeatMessage.k).getD ""
    t := if code.isSome then none else fields.map SeatMessage.t
    digest := context.digest message
    ack := none
    st := some (if code.isSome then .refused else .received)
    admissionFence := none
    ackPending := code.isSome
    sentAt := none
    receivedAt := some now
    prelude := if code.isSome then none else fields.map fun fields => context.prelude link fields.p
    code := code
    operationId := none
    lease := none }

/-- One message: a known id that is settled waits for its acknowledgement again. -/
def acceptMessage (link : LinkedPeer) (now : Int) (state : Rows × Nat) (message : Message) :
    Rows × Nat :=
  match state.1.get? (inKey link.install message.id) with
  | some prior =>
    if !prior.ackPending && prior.settled then
      (state.1.set { prior with ackPending := true }, state.2)
    else state
  | none => (state.1.set (insertedRow context link now message), state.2 + 1)

/-- One acknowledgement of the peer: the first one for a message stands. -/
def acceptAck (link : LinkedPeer) (state : Rows × Nat) (ack : Ack) : Rows × Nat :=
  let original := state.1.rows.find? fun row =>
    row.dir = .out ∧ row.link = link.install ∧ row.connection = link.connection ∧ row.id = ack.id
  match original with
  | some original =>
    if original.ack.isSome then state
    else (state.1.set { original with t := none, ack := some ack }, state.2 + 1)
  | none => state

def quotaExceeded (link : LinkedPeer) (now : Int) (part : SeatMessagePart) (rows : Rows) : Bool :=
  let newMessages := part.out.filter fun message => !rows.has (inKey link.install message.id)
  let today := rows.rows.countP fun row =>
    row.dir = .in ∧ row.link = link.install ∧ row.receivedAt.getD 0 ≥ now - DAY
  today + newMessages.length > 200

def acceptSeatMessages (link : LinkedPeer) (now : Int) (part : SeatMessagePart) (rows : Rows) :
    Rows × Except SeatMessageRefusal Nat :=
  if part.out = [] ∧ part.ack = [] then (rows, .ok 0)
  else if quotaExceeded link now part rows then
    (rows, .error ⟨"quota", "The link's daily seat-message quota was reached."⟩)
  else
    let received := part.out.foldl (acceptMessage context link now) (rows, 0)
    let acknowledged := part.ack.foldl (acceptAck link) received
    (acknowledged.1, .ok acknowledged.2)

/-! ### `seatMessagesPart` -/

/-- The rows whose messages fit one part. -/
def fitting (sent : List Row) : List Row → List Row
  | [] => sent
  | row :: rest =>
    if context.partBytes (sent ++ [row]) > 158000 then sent else fitting (sent ++ [row]) rest

def waitingMessages (link : LinkedPeer) (now : Int) (rows : Rows) : List Row :=
  let candidates := rows.rows.filter fun row =>
    row.dir = .out ∧ row.link = link.install ∧ row.connection = link.connection ∧
      row.st ≠ some .notDelivered ∧ row.ack = none ∧ row.p ∈ link.projects ∧ now - row.at ≤ 30 * DAY
  fitting context [] ((candidates.mergeSort fun a b => a.at ≤ b.at).take 10)

/-- The inbound rows of the link that wait for their acknowledgement. -/
def pendingAcks (link : LinkedPeer) (rows : Rows) : List Row :=
  rows.rows.filter fun row =>
    row.dir = .in ∧ row.link = link.install ∧ row.connection = link.connection ∧ row.ackPending ∧
      row.settled

/-- The ten of them that were received last. -/
def nextAcks (link : LinkedPeer) (rows : Rows) : List Row :=
  ((pendingAcks link rows).mergeSort fun a b => b.receivedAt.getD 0 ≤ a.receivedAt.getD 0).take 10

/-- The acknowledgement of a settled row. -/
def ackOf (row : Row) : Ack :=
  ⟨row.id, if row.st = some .accepted then .accepted else .refused, row.code.filter (· ≠ "")⟩

def clearPending (rows : Rows) (key : String) : Rows :=
  match rows.get? key with
  | some row => if row.ackPending then rows.set { row with ackPending := false } else rows
  | none => rows

def markSent (now : Int) (rows : Rows) (sent : Row) : Rows :=
  if sent.sentAt.isSome then rows
  else
    match rows.get? sent.key with
    | some held => if held.sentAt.isSome then rows else rows.set { held with sentAt := some now }
    | none => rows

/-- What a part carries: the messages of rows and the acknowledgements. -/
structure BuiltPart where
  out : List Row
  ack : List Ack

/-- The part for a link that takes seat messages. -/
def seatMessagesPart (link : LinkedPeer) (now : Int) (rows : Rows) : Rows × BuiltPart :=
  let out := waitingMessages context link now rows
  let ack := (nextAcks link rows).map ackOf
  let cleared := (ack.map fun item => inKey link.install item.id).foldl clearPending rows
  (out.foldl (markSent now) cleared, ⟨out, ack⟩)

/-! ### `drainSeatMessages` -/

/-- The outcome of `deliverLinkedSeatMessage`. -/
inductive Delivery where
  | settled (st : AckState) (code operationId : Option String)
  | retry

def rowState : AckState → RowState
  | .accepted => .accepted
  | .refused => .refused

/-- A drain claims a row that it read as `seen`, whose lease it found dead. -/
def claim (link : LinkedPeer) (seen : Row) (leaseAlive : Lease → Bool) (lease : Lease) (rows : Rows) :
    Rows :=
  if seen.dir = .in ∧ seen.link = link.install ∧ seen.connection = link.connection ∧
      (seen.st = some .received ∨ seen.st = some .delivering) ∧ seen.lease.any leaseAlive = false then
    match rows.get? seen.key with
    | some current =>
      if current.st = seen.st ∧ current.lease.map Lease.token = seen.lease.map Lease.token then
        rows.set { current with st := some .delivering, lease := some lease }
      else rows
    | none => rows
  else rows

/-- The row after its delivery. -/
def settledRow (row : Row) : Delivery → Row
  | .retry => { row with st := some .received, lease := none }
  | .settled st code operationId =>
    { row with
      st := some (rowState st), ackPending := true, code := code, operationId := operationId
      t := none, lease := none }

/-- The holder of a lease saves the outcome; a delivery that threw is saved as a retry. -/
def settle (key token : String) (outcome : Delivery) (rows : Rows) : Rows :=
  match rows.get? key with
  | some current =>
    if current.lease.map Lease.token = some token then rows.set (settledRow current outcome) else rows
  | none => rows

/-- The rows that a drain prunes. -/
def expiredRows (now : Int) (rows : Rows) : List Row :=
  (rows.rows.filter fun row =>
    row.admissionFence = none ∧ now - row.receivedAt.getD row.at > 35 * DAY).take 100

def prune (now : Int) (rows : Rows) : Rows :=
  (expiredRows now rows).foldl (fun rows row => rows.delete row.key) rows

/-! ### Runs -/

/-- The calls on the store.  `outbound` is a write of the outbound half, which has keys of its own. -/
inductive Call where
  | accept (link : LinkedPeer) (now : Int) (part : SeatMessagePart)
  | part (link : LinkedPeer) (now : Int)
  | claim (link : LinkedPeer) (seen : Row) (leaseAlive : Lease → Bool) (lease : Lease)
  | settle (key token : String) (outcome : Delivery)
  | prune (now : Int)
  | outbound (row : Row)

inductive Answer where
  | accepted (result : Except SeatMessageRefusal Nat)
  | part (built : BuiltPart)
  | none

def step (rows : Rows) : Call → Rows × Answer
  | .accept link now part =>
    let (rows, result) := acceptSeatMessages context link now part rows
    (rows, .accepted result)
  | .part link now =>
    let (rows, built) := seatMessagesPart context link now rows
    (rows, .part built)
  | .claim link seen leaseAlive lease => (claim link seen leaseAlive lease rows, .none)
  | .settle key token outcome => (settle key token outcome rows, .none)
  | .prune now => (prune now rows, .none)
  | .outbound row =>
    if row.dir = .out ∧ row.key.toList.take 4 = "out:".toList then (rows.set row, .none)
    else (rows, .none)

end Calls

end Delegatus.SeatInbox
