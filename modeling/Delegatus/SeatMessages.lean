import Delegatus.Runs
import Delegatus.Table
import Mathlib

/-!
# Seat messages between linked installs

The outbound half of the durable seat-message store: `queueSeatMessage` admits a message
under the key of its client message id, and `recoverSeatMessage` closes the MCP-to-outbox
hop of an attempt by leaving a `not-delivered` row with a rotated admission fence, behind
which only a retry that carries the fence is admitted.

Both write inside one bounded transaction of the store.  `queueSeatMessage` is that
transaction; `recoverSeatMessage` first reads the row outside of it and may answer from
there, so its two halves are two steps of a run (`recoverRead`, `recoverPatch`).  The
clock readings and the UUIDs a call draws are its arguments, as is the alias snapshot it
resolves the project with; the SHA-256 hex digest is the parameter `sha`.
-/

namespace Delegatus.SeatMessages

/-! ### Message text -/

/-- The white space of `trim` and of `\s`. -/
def isJsSpace (c : Char) : Bool :=
  let n := c.toNat
  (9 ≤ n && n ≤ 13) || n == 0x20 || n == 0xA0 || n == 0x1680 || (0x2000 ≤ n && n ≤ 0x200A) ||
    n == 0x2028 || n == 0x2029 || n == 0x202F || n == 0x205F || n == 0x3000 || n == 0xFEFF

/-- `text.length`: UTF-16 code units. -/
def utf16Length (text : String) : Nat :=
  (text.toList.map (fun c => if c.toNat > 0xFFFF then 2 else 1)).sum

/-- `!text.trim()`. -/
def isBlank (text : String) : Bool := text.toList.all isJsSpace

/-- A case-insensitive match of `word` at the front: what follows it. -/
def stripWord : List Char → List Char → Option (List Char)
  | [], rest => some rest
  | _ :: _, [] => none
  | c :: word, d :: rest => if c.toLower = d.toLower then stripWord word rest else none

/-- `\w`. -/
def isWordChar (c : Char) : Bool := c.isAlphanum || c == '_'

/-- `/<!--\s*llv:|\[bridge\b/i` matches at the front of the text. -/
def reservedAtFront (text : List Char) : Bool :=
  (match stripWord "<!--".toList text with
    | some rest => (stripWord "llv:".toList (rest.dropWhile isJsSpace)).isSome
    | none => false) ||
  (match stripWord "[bridge".toList text with
    | some (next :: _) => !isWordChar next
    | some [] => true
    | none => false)

def hasReservedMarker (text : String) : Bool :=
  text.toList.tails.any reservedAtFront

def seatMessageTextValid (text : String) : Bool :=
  utf16Length text ≤ 8000 && !isBlank text && !hasReservedMarker text

/-! ### `JSON.stringify` of the digested record -/

def hexDigit (n : Nat) : Char :=
  if n < 10 then Char.ofNat (48 + n) else Char.ofNat (87 + n)

def jsonEscape (c : Char) : List Char :=
  if c = '"' then ['\\', '"']
  else if c = '\\' then ['\\', '\\']
  else if c.toNat = 8 then ['\\', 'b']
  else if c.toNat = 9 then ['\\', 't']
  else if c.toNat = 10 then ['\\', 'n']
  else if c.toNat = 12 then ['\\', 'f']
  else if c.toNat = 13 then ['\\', 'r']
  else if c.toNat < 32 then
    ['\\', 'u', '0', '0', hexDigit (c.toNat / 16), hexDigit (c.toNat % 16)]
  else [c]

def jsonString (text : String) : String :=
  "\"" ++ String.ofList (text.toList.flatMap jsonEscape) ++ "\""

/-- `JSON.stringify({ p, k, t })`. -/
def digestRecord (p k t : String) : String :=
  "\x7b\"p\":" ++ jsonString p ++ ",\"k\":" ++ jsonString k ++ ",\"t\":" ++ jsonString t ++ "\x7d"

/-! ### Rows -/

inductive AckState where
  | accepted
  | refused
  deriving DecidableEq

structure Ack where
  id : String
  st : AckState
  code : Option String
  deriving DecidableEq

inductive Direction where
  | out
  | «in»
  deriving DecidableEq

inductive RowState where
  | received
  | delivering
  | accepted
  | refused
  | notDelivered
  deriving DecidableEq

/-- A stored row, with the fields that the outbound calls read or write. -/
structure Row where
  key : String
  dir : Direction
  id : String
  link : String
  connection : String
  p : String
  «at» : Int
  k : String
  t : Option String
  digest : String
  ack : Option Ack
  st : Option RowState
  admissionFence : Option String
  deriving DecidableEq

/-- The collection, keyed by row key. -/
abbrev Rows := Table (fun row : Row => row.key)

/-- A link's fields that the outbound calls use; `connection` is the link's current
connection key. -/
structure LinkedPeer where
  install : String
  label : String
  connection : String

structure SeatMessageRefusal where
  code : String
  message : String

structure Acceptance where
  operationId : String
  machine : Option String
  state : String
  code : Option String

def ackName : AckState → String
  | .accepted => "accepted"
  | .refused => "refused"

def seatMessageAcceptance (row : Row) (machine : Option String) : Acceptance where
  operationId := "seatmsg_" ++ row.id
  machine := machine
  state := (row.ack.map (fun ack => ackName ack.st)).getD "queued"
  code := row.ack.bind Ack.code

def DAY : Int := 86400000

def SECONDS_30 : Int := 30000

/-- `out:${install}:${sha(clientMessageId)}`. -/
def outKey (sha : String → String) (install clientMessageId : String) : String :=
  "out:" ++ install ++ ":" ++ sha clientMessageId

/-- `sha(conversation).slice(0, 16)`. -/
def shortHash (sha : String → String) (conversation : String) : String :=
  String.ofList ((sha conversation).toList.take 16)

/-! ### `queueSeatMessage` -/

/-- One call of `queueSeatMessage`: its arguments, the alias snapshot it resolves the
project with, its clock reading and the UUID it would draw for a new row. -/
structure QueueCall where
  link : LinkedPeer
  project : String
  text : String
  seatConversationId : String
  clientMessageId : String
  admissionFence : Option String
  canonicalProject : String → String
  now : Int
  uuid : String

section Calls

variable (sha : String → String)

def QueueCall.key (call : QueueCall) : String := outKey sha call.link.install call.clientMessageId

def QueueCall.digest (call : QueueCall) : String :=
  sha (digestRecord (call.canonicalProject call.project) (shortHash sha call.seatConversationId)
    call.text)

/-- The text checks of `queueSeatMessage`, in their order. -/
def textRefusal (text : String) : Option SeatMessageRefusal :=
  if isBlank text then some ⟨"message_empty", "Message text is required."⟩
  else if utf16Length text > 8000 then
    some ⟨"message_too_long", "Seat messages are limited to 8000 UTF-16 units."⟩
  else if !seatMessageTextValid text then
    some ⟨"relay_reserved_metadata",
      "Relay the words without Delegatus authority markers or bridge trailers."⟩
  else none

/-- The backlog and quota checks over the link's outbound rows. -/
def quotaRefusal (rows : Rows) (link : LinkedPeer) (now : Int) : Option SeatMessageRefusal :=
  let all := rows.rows.filter (fun row =>
    row.dir = .out ∧ row.link = link.install ∧ row.st ≠ some .notDelivered)
  if (all.filter (fun row => row.ack = none ∧ now - row.at ≤ 30 * DAY)).length ≥ 20 then
    some ⟨"message_backlog", "20 messages to " ++ link.label ++ " are still waiting."⟩
  else if (all.filter (fun row => row.at ≥ now - DAY)).length ≥ 200 then
    some ⟨"quota", "The link's daily seat-message quota was reached."⟩
  else none

/-- The row `queueSeatMessage` puts; `prior` is the row it found. -/
def queuedRow (call : QueueCall) (prior : Option Row) : Row where
  key := call.key sha
  dir := .out
  id := (prior.map Row.id).getD call.uuid
  link := call.link.install
  connection := call.link.connection
  p := call.canonicalProject call.project
  «at» := call.now
  k := shortHash sha call.seatConversationId
  t := some call.text
  digest := call.digest sha
  ack := none
  st := none
  admissionFence := prior.bind Row.admissionFence

/-- The part of the transaction after the checks on the row of the call's key. -/
def admitUnder (call : QueueCall) (prior : Option Row) (rows : Rows) :
    Rows × Except SeatMessageRefusal Acceptance :=
  match quotaRefusal rows call.link call.now with
  | some refusal => (rows, .error refusal)
  | none =>
    let row := queuedRow sha call prior
    (rows.set row, .ok (seatMessageAcceptance row (some call.link.label)))

def queueSeatMessage (call : QueueCall) (rows : Rows) :
    Rows × Except SeatMessageRefusal Acceptance :=
  match textRefusal call.text with
  | some refusal => (rows, .error refusal)
  | none =>
    match rows.get? (call.key sha) with
    | some prior =>
      if prior.digest ≠ call.digest sha then
        (rows, .error ⟨"idempotency_conflict",
          "The message key does not match its original words or sender."⟩)
      else if prior.st ≠ some .notDelivered then
        (rows, .ok (seatMessageAcceptance prior (some call.link.label)))
      else if prior.admissionFence ≠ call.admissionFence then
        (rows, .error ⟨"seat_message_fenced", "The MCP-to-outbox hop was fenced before " ++
          "admission; retry the original clientRequestId."⟩)
      else admitUnder sha call (some prior) rows
    | none => admitUnder sha call none rows

/-! ### `recoverSeatMessage` -/

/-- The request of a recovery; `claimedAt` is `Date.parse` of the source's field, `none`
when that is not a finite number. -/
structure RecoverRequest where
  project : String
  text : String
  caller : String
  claimedAt : Option Int
  admissionFence : Option String
  fence : Option Bool

/-- One call of `recoverSeatMessage` with its clock reading and its alias snapshot. -/
structure RecoverCall where
  install : String
  clientMessageId : String
  request : Option RecoverRequest
  canonicalProject : String → String
  now : Int

inductive RecoverOutcome where
  | accepted (acceptance : Acceptance)
  | historyExpired
  | notExecuted

def RecoverCall.key (call : RecoverCall) : String :=
  outKey sha call.install call.clientMessageId

def RecoverRequest.digest (canonicalProject : String → String) (request : RecoverRequest) :
    String :=
  sha (digestRecord (canonicalProject request.project) (shortHash sha request.caller)
    request.text)

def recoveryConflict : SeatMessageRefusal :=
  ⟨"idempotency_conflict", "The recovery payload contradicts the outbound message."⟩

/-- How the first half of `recoverSeatMessage` ends: with the call's answer, or in the
transaction that fences the attempt. -/
inductive RecoverRead where
  | answer (result : Except SeatMessageRefusal (Option RecoverOutcome))
  | patch (request : RecoverRequest)

/-- The first half of `recoverSeatMessage`, up to its transaction. -/
def recoverRead (call : RecoverCall) (rows : Rows) : RecoverRead :=
  match rows.get? (call.key sha), call.request with
  | some row, request =>
    if request.any (fun request => row.digest ≠ request.digest sha call.canonicalProject) then
      .answer (.error recoveryConflict)
    else if row.st ≠ some .notDelivered then
      .answer (.ok (some (.accepted (seatMessageAcceptance row none))))
    else window request
  | none, request =>
    match request.bind RecoverRequest.claimedAt with
    | some claimedAt =>
      if call.now - claimedAt > 35 * DAY then .answer (.ok (some .historyExpired))
      else window request
    | none => window request
where
  /-- The original admission keeps a bounded window before it is fenced. -/
  window : Option RecoverRequest → RecoverRead
    | none => .answer (.ok none)
    | some request =>
      if request.fence = some false then .answer (.ok none)
      else
        match request.claimedAt with
        | none => .answer (.ok none)
        | some claimedAt =>
          if call.now - claimedAt < SECONDS_30 then .answer (.ok none) else .patch request

/-- The row the fencing transaction puts.  The fence is rotated once for each admitted
attempt: a fence that differs from the request's is kept. -/
def fencedRow (call : RecoverCall) (request : RecoverRequest) (current : Option Row)
    (fenceUuid idUuid : String) : Row where
  key := call.key sha
  dir := .out
  id := (current.map Row.id).getD idUuid
  link := call.install
  connection := ""
  p := call.canonicalProject request.project
  «at» := (current.map Row.at).getD call.now
  k := shortHash sha request.caller
  t := none
  digest := request.digest sha call.canonicalProject
  ack := none
  st := some .notDelivered
  admissionFence :=
    match current with
    | some current =>
      if current.admissionFence ≠ request.admissionFence then current.admissionFence
      else some fenceUuid
    | none => some fenceUuid

/-- The fencing transaction of `recoverSeatMessage`. -/
def recoverPatch (call : RecoverCall) (request : RecoverRequest) (fenceUuid idUuid : String)
    (rows : Rows) : Rows × Except SeatMessageRefusal (Option RecoverOutcome) :=
  match rows.get? (call.key sha) with
  | some current =>
    if current.digest ≠ request.digest sha call.canonicalProject then
      (rows, .error recoveryConflict)
    else if current.st ≠ some .notDelivered then
      (rows, .ok (some (.accepted (seatMessageAcceptance current none))))
    else
      (rows.set (fencedRow sha call request (some current) fenceUuid idUuid),
        .ok (some .notExecuted))
  | none =>
    (rows.set (fencedRow sha call request none fenceUuid idUuid), .ok (some .notExecuted))

/-! ### Runs -/

/-- The collection and the recoveries that are between their two halves. -/
structure Store where
  rows : Rows
  waiting : List (RecoverCall × RecoverRequest)

def emptyStore : Store := ⟨Table.empty, []⟩

/-- The steps of the calls.  A recovery that reached its transaction is finished by a
`recoverPatch`, which draws the UUIDs. -/
inductive Step where
  | queue (call : QueueCall)
  | recoverRead (call : RecoverCall)
  | recoverPatch (index : Nat) (fenceUuid idUuid : String)

inductive Answer where
  | queued (result : Except SeatMessageRefusal Acceptance)
  | recovered (call : RecoverCall) (result : Except SeatMessageRefusal (Option RecoverOutcome))
  | none

def step (store : Store) : Step → Store × Answer
  | .queue call =>
    let (rows, result) := queueSeatMessage sha call store.rows
    ({ store with rows := rows }, .queued result)
  | .recoverRead call =>
    match recoverRead sha call store.rows with
    | .answer result => (store, .recovered call result)
    | .patch request => ({ store with waiting := store.waiting ++ [(call, request)] }, .none)
  | .recoverPatch index fenceUuid idUuid =>
    match store.waiting[index]? with
    | some (call, request) =>
      let (rows, result) := recoverPatch sha call request fenceUuid idUuid store.rows
      (⟨rows, store.waiting.eraseIdx index⟩, .recovered call result)
    | none => (store, .none)

/-- The store after the steps of `ops`, made in order on an empty collection. -/
def run (ops : List Step) : Store :=
  Runs.after (step sha) emptyStore ops

end Calls

end Delegatus.SeatMessages
