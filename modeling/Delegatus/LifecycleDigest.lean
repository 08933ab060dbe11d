import Delegatus.LifecycleJournal
import Delegatus.RowGroups

/-!
# Lifecycle digests

A subscriber polls the journal.  A poll relays the pending events, those after the subscriber's cursor
that match its filters, folded into at most a bounded number of items.  Terminal events come first,
but the item of the oldest pending event is always among the items, and the cursor moves only across
the leading events that the items carry.
-/

namespace Delegatus.Lifecycle

open RowGroups (Group groups)

def ROUTINE_DIGEST_INTERVAL_MS : Int := 5 * 60000

def DEFAULT_MAX_ITEMS : Int := 10

def MAX_ITEMS_CAP : Int := 25

structure DigestSubscriberState where
  cursorSeq : Nat
  lastRelayAt : Option String
  updatedAt : String

/-- One coalesced change. -/
structure LifecycleDigestItem where
  at_ : String
  type : LifecycleEventType
  state : LifecycleState
  project : Option String
  pipelineId : Option String
  stageId : Option String
  conversationId : Option String
  role : Option String
  summary : String
  count : Nat

structure LifecycleDigestRequest where
  subscriberId : String
  project : Option String := none
  pipelineId : Option String := none
  conversationId : Option String := none
  maxItems : Option Int := none
  now : Option Int := none
  acknowledge : Option Bool := none

inductive DigestReason where
  | terminal | batched

structure DigestRelay where
  reason : DigestReason
  items : List LifecycleDigestItem
  through : Nat
  omitted : Nat

structure LifecycleDigestResult where
  subscriberId : String
  relay : Option DigestRelay
  cursor : Nat
  pending : Nat
  heldUntil : Option String

/-- `Date.parse`, `none` where it gives no finite number, and `Date.prototype.toISOString`. -/
structure Dates where
  parse : String → Option Int
  iso : Int → String

/-- `${part.length}:${part}`, with the length in UTF-16 code units. -/
def lengthPrefixed (part : String) : String := (JsStrings.codeUnits part).length.repr ++ ":" ++ part

def digestScopeKey (request : LifecycleDigestRequest) : String :=
  String.join ([request.subscriberId, request.project.getD "", request.pipelineId.getD "",
    request.conversationId.getD ""].map lengthPrefixed)

/-- Same lineage and same transition, joined by NUL; a `null` joins as the empty text. -/
def digestShapeKey (event : LifecycleEvent) : String :=
  String.intercalate "\x00" [event.type.text, event.project.getD "", event.pipelineId.getD "",
    event.stageId.getD "", event.conversationId.getD ""]

def itemFromEvents (events : Group String LifecycleEvent) : LifecycleDigestItem :=
  { at_ := events.last.at_
    type := events.first.type
    state := events.last.state
    project := events.first.project
    pipelineId := events.first.pipelineId
    stageId := events.first.stageId
    conversationId := events.first.conversationId
    role := events.first.role
    summary := ((events.rows.reverse.find? fun event => event.summary ≠ "").map (·.summary)).getD ""
    count := events.rows.length }

def coalesceDigestItems (events : List LifecycleEvent) : List LifecycleDigestItem :=
  (groups digestShapeKey events).map itemFromEvents

structure DigestPayload where
  items : List LifecycleDigestItem
  through : Nat
  omitted : Nat
  carriesTerminal : Bool

/-- The oldest key takes a place, if need be that of the last terminal key. -/
def carryOldest (terminalKeys : List String) (maxItems : Nat) (selected : List String) (oldestKey : String) :
    List String :=
  if selected.contains oldestKey then selected
  else
    let room :=
      if selected.length ≥ maxItems then
        match terminalKeys[selected.length - 1]? with
        | some newest => selected.erase newest
        | none => selected
      else selected
    room ++ [oldestKey]

/-- `selected` when the last loop ends: the keys in order, up to the bound. -/
def fillSelection (maxItems : Nat) (selected : List String) : List String → List String
  | [] => selected
  | key :: order =>
      if selected.length ≥ maxItems then selected
      else if selected.contains key then fillSelection maxItems selected order
      else fillSelection maxItems (selected ++ [key]) order

def selectKeys (order terminalKeys : List String) (maxItems : Nat) : List String :=
  let selected := terminalKeys.take maxItems
  let carried := match order.head? with
    | some oldestKey => carryOldest terminalKeys maxItems selected oldestKey
    | none => selected
  fillSelection maxItems carried order

/-- `through` when the loop over the events ends, `cursor` before it. -/
def carriedThrough (selected : List String) (cursor : Nat) : List LifecycleEvent → Nat
  | [] => cursor
  | event :: rest =>
      if !selected.contains (digestShapeKey event) then cursor
      else carriedThrough selected event.seq rest

def selectDigestPayload (events : List LifecycleEvent) (maxItems cursorSeq : Nat) : DigestPayload :=
  let grouped := groups digestShapeKey events
  let order := grouped.map Group.key
  let terminalKeys :=
    (grouped.filter fun g => g.rows.any fun event => isTerminalHighSignalEvent event.type).map Group.key
  let selected := selectKeys order terminalKeys maxItems
  let items := (grouped.filter fun g => selected.contains g.key).map itemFromEvents
  { items := items
    through := carriedThrough selected cursorSeq events
    omitted := order.length - selected.length
    carriesTerminal := items.any fun item => isTerminalHighSignalEvent item.type }

/-! ### Polls -/

variable (dates : Dates)

def LifecycleDigestRequest.nowAt (request : LifecycleDigestRequest) (clock : Int) : Int :=
  request.now.getD clock

/-- The bound on the items of a relay. -/
def LifecycleDigestRequest.bound (request : LifecycleDigestRequest) : Nat :=
  (max 1 (min MAX_ITEMS_CAP (request.maxItems.getD DEFAULT_MAX_ITEMS))).toNat

/-- The query of a subscriber's pending events. -/
def LifecycleDigestRequest.query (request : LifecycleDigestRequest) (cursorSeq : Nat) :
    LifecycleEventQuery :=
  { project := request.project
    pipelineId := request.pipelineId
    conversationId := request.conversationId
    afterSeq := some cursorSeq }

/-- `parseMs`; the empty text and an absent one are no date. -/
def parseMs (value : Option String) : Option Int := (LinkedBoards.nonEmpty value).bind dates.parse

/-- The time until which a routine batch is held, where it still is. -/
def heldUntil (file : LifecycleJournalFile) (request : LifecycleDigestRequest)
    (subscriber : DigestSubscriberState) (now : Int) (oldest : LifecycleEvent) : Option Int :=
  let terminal := someMatchingEvent file (request.query subscriber.cursorSeq)
    fun event => isTerminalHighSignalEvent event.type
  if terminal then none
  else
    let oldestRoutineAt := (parseMs dates (some oldest.at_)).getD now
    let lastRelayMs := (parseMs dates subscriber.lastRelayAt).getD oldestRoutineAt
    let releaseAt := max oldestRoutineAt lastRelayMs + ROUTINE_DIGEST_INTERVAL_MS
    if now < releaseAt then some releaseAt else none

def evaluateDigest (file : LifecycleJournalFile) (request : LifecycleDigestRequest)
    (subscriber : DigestSubscriberState) (clock : Int) : LifecycleDigestResult :=
  let page := pageFromEvents file { request.query subscriber.cursorSeq with limit := some 200 }
  let base : LifecycleDigestResult :=
    { subscriberId := request.subscriberId
      relay := none
      cursor := subscriber.cursorSeq
      pending := page.events.length + page.remaining
      heldUntil := none }
  match page.events.head? with
  | none => base
  | some oldest =>
    match heldUntil dates file request subscriber (request.nowAt clock) oldest with
    | some releaseAt => { base with heldUntil := some (dates.iso releaseAt) }
    | none =>
      let payload := selectDigestPayload page.events request.bound subscriber.cursorSeq
      let unrelayed := (page.events.filter fun event => event.seq > payload.through).length
      { subscriberId := request.subscriberId
        relay := some
          { reason := if payload.carriesTerminal then .terminal else .batched
            items := payload.items
            through := payload.through
            omitted := payload.omitted }
        cursor := payload.through
        pending := page.remaining + unrelayed
        heldUntil := none }

end Delegatus.Lifecycle
