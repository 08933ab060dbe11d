import Mathlib.Data.List.Nodup
import Mathlib.Data.List.Sort
import Mathlib.Data.String.Basic

/-!
# CPU admission

The tables of the admission queue, the triggers that live in its file, and the operations of
`CpuAdmissionQueue`: `cancel`, `suspend`, `reconcile` and `check`. A table is the list of its
rows; an operation runs under the writer lock, so it is one step.

What `check` samples before it takes the lock, the owners it judged, the task priorities it
read and the tickets it saw, is part of the call. The lines it logs are left out.
-/

namespace Delegatus.CpuAdmission

def CPU_QUEUE_MAX_WAIT_MS : Int := 600000

def CPU_QUEUE_SPACING_MS : Int := 2000

def CPU_QUEUE_UNPOLLED_MS : Int := 60000

def CPU_QUEUE_ABANDONED_MS : Int := 86400000

def CPU_QUEUE_STALE_GRACE_MS : Int := 60000

/-- What a queue is opened with. -/
structure QueueOptions where
  spacingMs : Int := CPU_QUEUE_SPACING_MS
  maxWaitMs : Int := CPU_QUEUE_MAX_WAIT_MS
  unpolledMs : Int := CPU_QUEUE_UNPOLLED_MS
  maxWait_pos : 0 < maxWaitMs := by decide
  unpolled_nonneg : 0 ≤ unpolledMs := by decide
  spacing_nonneg : 0 ≤ spacingMs := by decide

inductive TaskPriority where
  | high
  | normal
  | low
deriving DecidableEq

/-- The rank a priority is stored as. -/
def rank : TaskPriority → Int
  | .high => 0
  | .normal => 1
  | .low => 2

structure Ticket where
  seq : Nat
  fifoSeq : Nat
  key : String
  since : Int
  owner : Option String
  priority : Int
  source : Option String
  polled : Option Int
  lowPressure : Bool
  aging : Bool
deriving DecidableEq

structure Tables where
  tickets : List Ticket
  suspended : List String
  unpolled : List String
  stageAdmissions : List String
  /-- `ticket_order.next`. -/
  next : Nat
  /-- `admission.last`. -/
  last : Option Int

/-- A file that was just created. -/
def newFile : Tables :=
  { tickets := [], suspended := [], unpolled := [], stageAdmissions := [], next := 1, last := none }

/-! ### Statements and the triggers they fire -/

/-- `UPDATE tickets SET … WHERE …`. -/
def updateWhere (p : Ticket → Bool) (f : Ticket → Ticket) (tables : Tables) : Tables :=
  { tables with tickets := tables.tickets.map (fun row => if p row then f row else row) }

/-- The place of a ticket in the view that older helpers order by. -/
def seqOf (tickets : List Ticket) (row : Ticket) : Nat :=
  tickets.countP (fun earlier => earlier.priority < row.priority ||
    (earlier.priority = row.priority && earlier.fifoSeq ≤ row.fifoSeq))

/-- `INSERT OR IGNORE INTO tickets (key, since, owner)`, with `tickets_poll` before it and
    `tickets_queued` and `tickets_fifo` after it. -/
def insertTicket (key : String) (since : Int) (owner : Option String) (tables : Tables) : Tables :=
  let tables := updateWhere (·.key = key) (fun row => { row with polled := some since })
    { tables with unpolled := tables.unpolled.filter (· ≠ key) }
  if tables.tickets.any (·.key = key) then tables
  else
    let row : Ticket := {
      seq := 0, fifoSeq := tables.next, key, since, owner, priority := 1, source := none
      polled := if owner = none then some since else none, lowPressure := false, aging := false }
    let tickets := tables.tickets ++ [row]
    { tables with
      tickets := tickets.map (fun row => { row with seq := seqOf tickets row })
      next := max tables.next ((tickets.map (·.fifoSeq)).foldl max 0 + 1) }

/-- `INSERT INTO suspended`, with `suspended_hold` before it. -/
def insertSuspended (key : String) (tables : Tables) : Tables :=
  { tables with
    unpolled := tables.unpolled.filter (· ≠ key)
    suspended := if key ∈ tables.suspended then tables.suspended else tables.suspended ++ [key] }

def insertUnpolled (key : String) (tables : Tables) : Tables :=
  { tables with
    unpolled := if key ∈ tables.unpolled then tables.unpolled else tables.unpolled ++ [key] }

/-- `suspended_keep` lets a deletion from `suspended` through. -/
def releases (key : String) (tables : Tables) : Bool :=
  tables.suspended.contains key && !tables.unpolled.contains key

/-- `DELETE FROM suspended`, with `suspended_keep` before it and `suspended_release` after it. -/
def deleteSuspended (key : String) (tables : Tables) : Tables :=
  if releases key tables then
    updateWhere (fun row => row.key = key && row.owner = none)
      (fun row => { row with polled := none })
      { tables with suspended := tables.suspended.filter (· ≠ key) }
  else tables

def deleteStageAdmission (key : String) (tables : Tables) : Tables :=
  { tables with stageAdmissions := tables.stageAdmissions.filter (· ≠ key) }

/-- `DELETE FROM tickets`, with `tickets_gone` after it. -/
def deleteTicket (key : String) (tables : Tables) : Tables :=
  if tables.tickets.any (·.key = key) then
    { tables with
      tickets := tables.tickets.filter (·.key ≠ key)
      unpolled := tables.unpolled.filter (· ≠ key)
      suspended := tables.suspended.filter (· ≠ key) }
  else tables

/-! ### The smaller operations -/

def cancel (key : String) (tables : Tables) : Tables :=
  deleteTicket key (deleteSuspended key (deleteStageAdmission key tables))

def touch (key : String) (now : Int) (tables : Tables) : Tables :=
  updateWhere (·.key = key) (fun row => { row with polled := some now }) tables

def suspend (key : String) (now : Int) (tables : Tables) : Tables :=
  touch key now
    (if tables.tickets.any (fun row => row.key = key && row.owner = none) then
      insertSuspended key tables
    else tables)

/-- `ORDER BY priority, fifo_seq`. -/
def priorityOrder (tickets : List Ticket) : List Ticket :=
  tickets.insertionSort (fun a b => a.priority < b.priority ∨
    (a.priority = b.priority ∧ a.fifoSeq ≤ b.fifoSeq))

def orderLegacyTicketsByPriority (tables : Tables) : Tables :=
  let rows := priorityOrder tables.tickets
  if rows.map (·.seq) = List.range' 1 rows.length then tables
  else
    { tables with
      tickets := tables.tickets.map (fun row => { row with seq := rows.idxOf row + 1 }) }

/-- What `reconcile` does to one row; `now` is its reading of the clock there. -/
def reconcileRow (active eligible : List String) (now : String → Int) (tables : Tables)
    (row : Ticket) : Tables :=
  if row.key ∉ active then cancel row.key tables
  else
    let tables := deleteStageAdmission row.key tables
    if row.key ∉ eligible then suspend row.key (now row.key) tables
    else if releases row.key tables then
      touch row.key (now row.key) (deleteSuspended row.key tables)
    else tables

/-- `key.startsWith(text)`. -/
def startsWith (key text : String) : Bool := text.toList.isPrefixOf key.toList

/-- `active` and `eligible` are sets of keys. -/
def reconcile (scope : String) (active eligible : List String) (now : String → Int)
    (tables : Tables) : Tables :=
  (tables.tickets.filter (fun row => row.owner = none && startsWith row.key scope)).foldl
    (reconcileRow active eligible now) tables

/-! ### Check -/

inductive ProcessIdentityStatus where
  | alive
  | dead
  | unverified
deriving DecidableEq

/-- What the caller saw of an owner before it took the lock. -/
structure Observation where
  status : ProcessIdentityStatus
  exited : Bool

def Observation.dead (observed : Observation) : Bool :=
  observed.status = .dead || observed.exited

/-- A call of `check`: its arguments, what it sampled before the lock, and its two readings
    of the clock under the lock, the second for its own poll. -/
structure CheckCall where
  key : String
  pressureAllows : Bool
  owner : Option String
  consume : Bool
  source : Option String
  requireLowPressure : Bool
  owners : String → Option Observation
  priorities : String → Option TaskPriority
  sampledTickets : String → Option Ticket
  now : Int
  touched : Int
  forward : now ≤ touched

inductive HeldBy where
  | queue
  | pressure
deriving DecidableEq

structure CpuQueueWait where
  since : Int
  position : Nat
  waitedMs : Int
  heldBy : HeldBy
  priority : Option TaskPriority
  stalledMs : Option Int
deriving DecidableEq

section Check

variable (options : QueueOptions) (call : CheckCall)

/-- A ticket nobody polls keeps its row and stops counting. -/
def passOver (key : String) (tables : Tables) : Tables :=
  insertUnpolled key (insertSuspended key tables)

/-- One owned ticket, by what was seen of its owner. -/
def judgeOwner (tables : Tables) (row : Ticket) : Tables :=
  match row.owner.bind call.owners with
  | none => tables
  | some observed =>
    if observed.dead then cancel row.key tables
    else if observed.status ≠ .unverified || row.key = call.key then tables
    else
      let quiet := call.now - row.polled.getD row.since
      if quiet > CPU_QUEUE_ABANDONED_MS then cancel row.key tables
      else if quiet > options.unpolledMs && row.key ∉ tables.suspended then passOver row.key tables
      else tables

def judgeOwners (tables : Tables) : Tables :=
  (tables.tickets.filter (·.owner.isSome)).foldl (judgeOwner options call) tables

/-- Polls of holds that a release without polls ended. -/
def stampReleased (tables : Tables) : Tables :=
  updateWhere (fun row => row.owner = none && row.polled = none)
    (fun row => { row with polled := some call.now }) tables

/-- The call's own ticket is returned to its place and brought up to date. -/
def refresh (tables : Tables) : Tables :=
  let tables := deleteStageAdmission call.key (deleteSuspended call.key tables)
  let tables := touch call.key call.touched tables
  updateWhere (·.key = call.key)
    (fun row => { row with
      aging := true
      lowPressure := call.requireLowPressure
      source := if call.source.isSome then call.source else row.source }) tables

def enqueue (tables : Tables) : Tables :=
  refresh call (insertTicket call.key call.now call.owner tables)

/-- An ownerless ticket that was last polled more than `ms` ago. -/
def quietFor (ms : Int) (row : Ticket) : Bool :=
  row.owner = none && row.polled.any (fun polled => polled < call.now - ms)

def removeAbandoned (tables : Tables) : Tables :=
  (tables.tickets.filter (fun row => quietFor call CPU_QUEUE_ABANDONED_MS row &&
    (row.key ∉ tables.suspended || row.key ∈ tables.unpolled))).foldl
      (fun tables row => cancel row.key tables) tables

def passOverUnpolled (tables : Tables) : Tables :=
  (tables.tickets.filter (fun row => quietFor call options.unpolledMs row &&
    row.key ∉ tables.suspended)).foldl (fun tables row => passOver row.key tables) tables

/-- Neither suspended nor admitted. -/
def isWaiting (tables : Tables) (row : Ticket) : Bool :=
  row.key ∉ tables.suspended && row.key ∉ tables.stageAdmissions

/-- The rank a bound ticket has now; none when what was sampled no longer fits it. -/
def observedPriority (row : Ticket) : Option Int :=
  match row.source.bind call.priorities with
  | none => none
  | some priority =>
    let ownBinding := row.key = call.key && call.source.isSome
    let fits := match call.sampledTickets row.key with
      | some observed =>
        observed.priority = row.priority && (ownBinding || observed.source = row.source)
      | none => row.key = call.key && row.priority = 1
    if fits then some (rank priority) else none

/-- The tickets whose rank is observed. -/
def boundTickets (tables : Tables) : List Ticket :=
  tables.tickets.filter (fun row => row.source.isSome && isWaiting tables row)

def observationChanged (tables : Tables) : Bool :=
  (boundTickets tables).any (fun row => (observedPriority call row).isNone)

def applyPriorities (tables : Tables) : Tables :=
  if observationChanged call tables then tables
  else if (boundTickets tables).all (fun row => observedPriority call row = some row.priority) then
    tables
  else
    orderLegacyTicketsByPriority
      (updateWhere (fun row => row.source.isSome && isWaiting tables row)
        (fun row => { row with priority := (observedPriority call row).getD row.priority }) tables)

/-- The tables before priorities are applied. -/
def swept (tables : Tables) : Tables :=
  passOverUnpolled options call
    (removeAbandoned call (enqueue call (judgeOwners options call (stampReleased call tables))))

/-- The tables that the position is counted in. -/
def settled (tables : Tables) : Tables :=
  applyPriorities call (swept options call tables)

/-- How long a ticket has waited. -/
def waitedMs (since now : Int) : Int := max 0 (now - since)

/-- The class a ticket is ordered by: its rank, less one for each full bound it waited. -/
def agedClass (now : Int) (row : Ticket) : Int :=
  max 0 (row.priority - if row.aging then waitedMs row.since now / options.maxWaitMs else 0)

/-- The class of the call's own ticket. -/
def effectiveClass (ticket : Ticket) : Int :=
  max 0 (ticket.priority - waitedMs ticket.since call.now / options.maxWaitMs)

/-- What is left of the pressure bound. -/
def budget (ticket : Ticket) : Int :=
  max 0 (options.maxWaitMs - waitedMs ticket.since call.now)

/-- A bounded caller passes low-pressure-only tickets at its bound. -/
def passesLowPressure (ticket : Ticket) : Bool :=
  !call.requireLowPressure && budget options call ticket = 0

/-- A row that the position of `ticket` counts, `ticket` itself among them. -/
def counted (tables : Tables) (ticket row : Ticket) : Bool :=
  row.owner.isSome = ticket.owner.isSome &&
    (agedClass options call.now row < effectiveClass options call ticket ||
      (agedClass options call.now row = effectiveClass options call ticket &&
        row.fifoSeq ≤ ticket.fifoSeq)) &&
    (!passesLowPressure options call ticket || !row.lowPressure || row.key = call.key) &&
    isWaiting tables row

def positionOf (tables : Tables) (ticket : Ticket) : Nat :=
  tables.tickets.countP (counted options call tables ticket)

/-- `ORDER BY` the class and `fifo_seq`, `LIMIT 1`. -/
def headOf (tables : Tables) (ticket : Ticket) : Option Ticket :=
  ((tables.tickets.filter (counted options call tables ticket)).insertionSort
    (fun a b => agedClass options call.now a < agedClass options call.now b ∨
      (agedClass options call.now a = agedClass options call.now b ∧ a.fifoSeq ≤ b.fifoSeq))).head?

/-- What is left of the spacing after the last admission. -/
def spacing (tables : Tables) : Int :=
  match tables.last with
  | none => 0
  | some last => max 0 (last + options.spacingMs - call.now)

/-- `changed` is what was made of the observations. -/
def admits (changed : Bool) (tables : Tables) (ticket : Ticket) : Bool :=
  !changed && positionOf options call tables ticket = 1 && spacing options call tables = 0 &&
    (call.pressureAllows || (!call.requireLowPressure && budget options call ticket = 0))

/-- The call's ticket is settled. Stages keep a recoverable admission. -/
def admitTicket (tables : Tables) : Tables :=
  if call.owner = none && (startsWith call.key "stage:" || startsWith call.key "workflow:") then
    { tables with
      stageAdmissions := if call.key ∈ tables.stageAdmissions then tables.stageAdmissions
        else tables.stageAdmissions ++ [call.key] }
  else cancel call.key tables

def recordAdmission (tables : Tables) : Tables := { admitTicket call tables with last := some call.now }

def waitOf (changed : Bool) (tables : Tables) (ticket head : Ticket) : CpuQueueWait :=
  let position := positionOf options call tables ticket
  let stalledMs := call.now - max (head.since + options.maxWaitMs) (tables.last.getD 0)
  { since := ticket.since
    position
    waitedMs := waitedMs ticket.since call.now
    heldBy := if changed || position > 1 || spacing options call tables > 0 then .queue
      else .pressure
    priority := if ticket.priority = 1 then none
      else if ticket.priority = 0 then some .high else some .low
    stalledMs := if stalledMs > CPU_QUEUE_STALE_GRACE_MS then some stalledMs else none }

inductive CheckReply where
  /-- The source returns null; `consumed` says whether the ticket was admitted. -/
  | ready (consumed : Bool)
  | wait (wait : CpuQueueWait)
  /-- A row the statements rely on is missing: the transaction rolls back. -/
  | threw
deriving DecidableEq

/-- The end of `check`, over the tables the position is counted in. -/
def answer (changed : Bool) (counting tables : Tables) : Tables × CheckReply :=
  match counting.tickets.find? (·.key = call.key) with
  | none => (tables, .threw)
  | some ticket =>
    match headOf options call counting ticket with
    | none => (tables, .threw)
    | some head =>
      if admits options call changed counting ticket then
        (if call.consume then recordAdmission call counting else counting, .ready call.consume)
      else (counting, .wait (waitOf options call changed counting ticket head))

def check (tables : Tables) : Tables × CheckReply :=
  answer options call (observationChanged call (swept options call tables))
    (settled options call tables) tables

end Check

/-! ### Runs -/

/-- A call on the queue. -/
inductive Op where
  | check (call : CheckCall)
  | suspend (key : String) (now : Int)
  | reconcile (scope : String) (active eligible : List String) (now : String → Int)
  | cancel (key : String)
  /-- The insertion of a helper of an older release. -/
  | helperInsert (key : String) (since : Int) (owner : Option String)

/-- The reply of a check, none for the other calls. -/
def step (options : QueueOptions) (tables : Tables) (op : Op) : Tables × Option CheckReply :=
  match op with
  | .check call => ((check options call tables).1, some (check options call tables).2)
  | .suspend key now => (suspend key now tables, none)
  | .reconcile scope active eligible now => (reconcile scope active eligible now tables, none)
  | .cancel key => (cancel key tables, none)
  | .helperInsert key since owner => (insertTicket key since owner tables, none)

end Delegatus.CpuAdmission
