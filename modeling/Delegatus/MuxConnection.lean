import Delegatus.MuxFraming
import Delegatus.Table

/-!
# A connection of the stream multiplexer

`openMuxConnection`, `applyMuxOps` and the `run` of every channel that was opened on the
connection. Between two awaits `run` is one step: what `open` answered (`runOpened`), and
what one `reader.read()` gave (`runRead`). A channel object is told from another of the same
id by its place in `runs`.

What the outside decides is part of a step: what `open` and the readers give, what the
stream's queue makes of a write (`Sink`), and when the reader of the connection leaves.
-/

namespace Delegatus.MuxConnection

open JsonText MuxFraming

def MUX_MAX_CHANNELS : Nat := 8

def MUX_STREAM_PATHS : List Text :=
  [units "/api/logs/stream", units "/api/runtime/stream", units "/api/self-update/events"]

/-- A frame of the connection, by what it is encoded from. -/
inductive Frame where
  | ready
  | ping
  | up (channel : Text)
  | event (channel : Text) (event : SseEvent)
  | ended (channel : Text) (status : Nat)
deriving DecidableEq

/-- Where the `run` of a channel waits. -/
inductive Phase where
  /-- For `open` to answer. -/
  | opening
  /-- For `reader.read()`. -/
  | reading (parser : SseParser)
  | settled

/-- A channel object and its `run`. -/
structure Run where
  id : Text
  lastEventId : Text
  phase : Phase
  aborted : Bool

/-- An entry of the map of channels: the id and the place of the channel object in `runs`. -/
structure Entry where
  id : Text
  channel : Nat
deriving DecidableEq

structure Connection where
  channels : Table Entry.id
  /-- Every channel object that was made, the oldest first. -/
  runs : List Run
  closed : Bool
  /-- What was enqueued, with the channel object whose `run` wrote it. -/
  sent : List (Option Nat × Frame)

/-- What enqueuing a text does: `full` takes it and leaves more than `MAX_QUEUED_BYTES`. -/
inductive Sink where
  | taken
  | full
  | refused

namespace Connection

/-- Rewrites the channel objects. -/
def updateRuns (c : Connection) (f : Nat → Run → Run) : Connection :=
  { c with runs := c.runs.mapIdx f }

/-- `abort.abort()` of the channels that `p` picks. -/
def abort (c : Connection) (p : Nat → Bool) : Connection :=
  c.updateRuns (fun t run => if p t then { run with aborted := true } else run)

def setPhase (c : Connection) (t : Nat) (phase : Phase) : Connection :=
  c.updateRuns (fun other run => if other = t then { run with phase } else run)

def shutdown (c : Connection) : Connection :=
  if c.closed then c
  else
    { (c.abort (fun t => c.channels.rows.any (·.channel = t))) with
      closed := true
      channels := Table.empty }

def write (c : Connection) (sink : Sink) (writer : Option Nat) (frames : List Frame) :
    Connection :=
  if c.closed then c
  else
    match sink with
    | .taken => { c with sent := c.sent ++ frames.map (fun frame => (writer, frame)) }
    | .full => shutdown { c with sent := c.sent ++ frames.map (fun frame => (writer, frame)) }
    | .refused => c.shutdown

end Connection

/-- The state after `start`; `aborted` says whether the reader had left before it. -/
def openMuxConnection (aborted : Bool) (sink : Sink) : Connection :=
  let c : Connection := { channels := Table.empty, runs := [], closed := false, sent := [] }
  if aborted then c.shutdown else c.write sink none [.ready]

/-! ### The run of a channel -/

/-- `connection.channels.get(id) === channel`. -/
def current (c : Connection) (id : Text) (t : Nat) : Bool :=
  (c.channels.get? id).any (·.channel = t)

/-- The `finally` of `run`. -/
def finish (c : Connection) (sink : Sink) (t : Nat) (id : Text) (status : Nat) : Connection :=
  let c := c.setPhase t .settled
  if current c id t then
    { c with channels := c.channels.delete id }.write sink (some t) [.ended id status]
  else c

/-- What a route answered. -/
structure Response where
  ok : Bool
  status : Nat
  /-- Its content type is that of an event stream. -/
  eventStream : Bool
  /-- Whether the body is locked, if there is one. -/
  body : Option Bool

def Response.stream (response : Response) : Option Bool :=
  if response.ok && response.eventStream then response.body else none

/-- `run` from the answer of `open` to its next await; `none` when it threw. -/
def runOpened (c : Connection) (sink : Sink) (t : Nat) (answer : Option Response) : Connection :=
  match c.runs[t]? with
  | some { id, lastEventId, phase := .opening, .. } =>
    match answer with
    | none => finish c sink t id 500
    | some response =>
      match response.stream with
      | none => finish c sink t id (if response.ok then 502 else response.status)
      | some locked =>
        if !current c id t then finish c sink t id 0
        -- `getReader` of a locked stream throws
        else if locked then finish c sink t id 0
        else
          (c.setPhase t (.reading (createSseParser lastEventId))).write sink (some t) [.up id]
  | _ => c

/-- What `reader.read()` gave: a text is what the decoder makes of the bytes. -/
inductive Read where
  | value (text : Text)
  | done
  | threw

/-- One turn of the loop of `run`. -/
def runRead (c : Connection) (sink : Sink) (t : Nat) (read : Read) : Connection :=
  match c.runs[t]? with
  | some { id, phase := .reading parser, .. } =>
    match read with
    | .done => finish c sink t id 0
    | .threw => finish c sink t id 0
    | .value text =>
      if !current c id t then finish c sink t id 0
      else
        let (next, events) := push parser text
        let c := c.setPhase t (.reading next)
        if events = [] then c else c.write sink (some t) (events.map (.event id))
  | _ => c

/-! ### Control requests -/

inductive MuxOp where
  | opens (id url : Text) (lastEventId : Option Text)
  | close (id : Text)

def MuxOp.id : MuxOp → Text
  | .opens id _ _ => id
  | .close id => id

structure Url where
  origin : Text
  pathname : Text

def allowed (url base : Url) : Bool :=
  url.origin = base.origin && MUX_STREAM_PATHS.contains url.pathname

/-- What meets an operation outside: the queue, and whether `open` throws at once. -/
structure Outcome where
  sink : Sink
  throws : Bool

section Ops

-- `new URL(url, base)` as the platform resolves it
variable (parseUrl : Text → Option Url) (base : Url)

/-- The channel that the id names is taken off and aborted. -/
def dropPrevious (c : Connection) (id : Text) : Connection :=
  match c.channels.get? id with
  | none => c
  | some previous =>
    { (c.abort (fun t => t = previous.channel)) with channels := c.channels.delete id }

/-- The new channel object, and its `run` until `open` is awaited. -/
def openChannel (c : Connection) (outcome : Outcome) (id lastEventId : Text) : Connection :=
  let t := c.runs.length
  let c := { c with
    channels := c.channels.set { id, channel := t }
    runs := c.runs ++ [{ id, lastEventId, phase := .opening, aborted := false }] }
  if outcome.throws then finish c outcome.sink t id 500 else c

def applyMuxOp (c : Connection) (call : MuxOp × Outcome) : Connection :=
  let c := dropPrevious c call.1.id
  match call.1 with
  | .close _ => c
  | .opens id url lastEventId =>
    if !(parseUrl url).any (allowed · base) then c.write call.2.sink none [.ended id 400]
    else if c.channels.rows.length ≥ MUX_MAX_CHANNELS then
      c.write call.2.sink none [.ended id 429]
    else openChannel c call.2 id (lastEventId.getD [])

/-- The operations of a request, in the order given. -/
def applyOps (c : Connection) (ops : List (MuxOp × Outcome)) : Connection :=
  ops.foldl (applyMuxOp parseUrl base) c

inductive ApplyResult where
  | ok
  | unknownConnection

/-- A connection that was shut down is not registered. -/
def applyMuxOps (c : Connection) (ops : List (MuxOp × Outcome)) : Connection × ApplyResult :=
  if c.closed then (c, .unknownConnection) else (applyOps parseUrl base c ops, .ok)

/-- What happens on a connection. -/
inductive Step where
  | ops (ops : List (MuxOp × Outcome))
  | opened (t : Nat) (answer : Option Response) (sink : Sink)
  | read (t : Nat) (read : Read) (sink : Sink)
  | ping (sink : Sink)
  /-- The reader leaves, or a ping finds that it did. -/
  | leave

/-- The result of a control request, none for the other steps. -/
def step (c : Connection) : Step → Connection × Option ApplyResult
  | .ops ops => ((applyMuxOps parseUrl base c ops).1, some (applyMuxOps parseUrl base c ops).2)
  | .opened t answer sink => (runOpened c sink t answer, none)
  | .read t read sink => (runRead c sink t read, none)
  | .ping sink => (c.write sink none [.ping], none)
  | .leave => (c.shutdown, none)

end Ops

end Delegatus.MuxConnection
