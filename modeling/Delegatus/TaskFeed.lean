import Delegatus.LinkedTasks
import Delegatus.StateOperations
import Delegatus.Entries
import Delegatus.JsonText
import Mathlib.Data.String.Basic

/-!
# Pages of the task log

`readLogPage` reads the change log of the task collection strictly after a position, some entries at a
time, and answers the rows that the peer may have.  A page stops at a bound, at the end of the log, or
after `MAX_LOG_ENTRIES` entries.  A walk follows the cursors from page to page while tasks are written
and old entries are pruned: `Walk.step` is one write, the opening of a page, or one batch of entries.

What a page reads beside the task collection is an input of its step: what the board shows and what a
role memory withholds (`PageContext`), the revision that the sweep of omitted tasks answered, and the
tombstones at each batch.
-/

namespace Delegatus.TaskFeed

open LinkedBoards StateStore
open JsonText (Text)

/-- A row key is never empty. -/
instance emptyText : EmptyCollection String := ⟨""⟩

/-! ### Rows and filters -/

/-- The task collection: its options, and the task of a row's text where it is one.  A receipt's or a
marker's row gives none. -/
structure TaskRows (ρ τ : Type) where
  options : Options String τ
  parse : Text → Option (BoardTask ρ)
  /-- A task's row is stored under `t:` and the task's id. -/
  keyed : ∀ record task, parse (options.stringify record) = some task →
    options.key record = "t:" ++ task.id
  /-- The keys begin with `t:`, `r:` or `m:`. -/
  token : ∀ record, (options.key record).toList.take 2 ≠ ['x', ':']

def isHexDigit (c : Char) : Bool := c.isDigit || ('a' ≤ c && c ≤ 'f')

/-- The text fits the pattern: `x` stands for a lower hex digit. -/
def fits : List Char → List Char → Bool
  | [], [] => true
  | 'x' :: pattern, c :: text => isHexDigit c && fits pattern text
  | p :: pattern, c :: text => p = c && fits pattern text
  | _, _ => false

def isUuid (id : String) : Bool := fits "xxxxxxxx-xxxx-xxxx-xxxx-xxxxxxxxxxxx".toList id.toList

/-- `/^repo-[0-9a-f]{32}$/`. -/
def isProject (project : String) : Bool :=
  fits "repo-xxxxxxxxxxxxxxxxxxxxxxxxxxxxxxxx".toList project.toList

/-- The checks of a wire row.  `otherBytes` measures tombstones and stubs. -/
structure FeedChecks extends WireChecks where
  otherBytes : WireRow → Nat
  uuid : ∀ row, validateWireTask row = true → isUuid row.id = true

structure TaskTombstone where
  id : String
  project : String
  gone : LinkStamps.Stamp
  o : String

structure FeedFilter where
  self : Self
  projects : List String
  skipPrefix : Option String
  options : EncodeOptions

/-- What a page finds beside the collection: whether the board shows a done task, a task without the
lessons that it quotes, and whether there is a tombstone collection. -/
structure PageContext (ρ : Type) where
  showsOnBoard : BoardTask ρ → Bool
  outbound : BoardTask ρ → BoardTask ρ
  outbound_id : ∀ task, (outbound task).id = task.id
  tombstones : Bool

variable {ρ τ : Type}

/-- `exportableTasks`: only its owner can age a done task out. -/
def exportable (filter : FeedFilter) (context : PageContext ρ) (task : BoardTask ρ) : Bool :=
  task.status ≠ .done || (task.machine.any fun machine => machine ≠ "" && machine ≠ filter.self.id) ||
    context.showsOnBoard task

/-- `o !== filter.skipPrefix`. -/
def otherOrigin (filter : FeedFilter) (o : Option String) : Bool :=
  filter.skipPrefix.isNone || o ≠ filter.skipPrefix

def passesTask (filter : FeedFilter) (context : PageContext ρ) (task : BoardTask ρ) : Bool :=
  filter.projects.contains task.project && otherOrigin filter (task.sync.map (·.o)) &&
    exportable filter context task

def passesTombstone (filter : FeedFilter) (tombstone : TaskTombstone) : Bool :=
  filter.projects.contains tombstone.project && otherOrigin filter (some tombstone.o)

/-- `encodeTask` with its measure. -/
def encoded (checks : FeedChecks) (filter : FeedFilter) (task : BoardTask ρ) : WireRow × Nat :=
  match encodeTask checks.toWireChecks task filter.self filter.options with
  | .task row =>
      (.task row, (measuredRow checks.toWireChecks (fullRow task filter.self filter.options)).2)
  | row => (row, checks.otherBytes row)

/-- `decodeWireRow` throws no `MalformedRow`. -/
def wellFormed (checks : FeedChecks) : WireRow → Bool
  | .task row => checks.rowBytes row ≤ MAX_WIRE_ROW_BYTES && checks.validateWireTask row
  | .gone row => checks.otherBytes (.gone row) ≤ MAX_WIRE_ROW_BYTES && isUuid row.id && isProject row.project
  | .stub row => checks.otherBytes (.stub row) ≤ MAX_WIRE_ROW_BYTES && isUuid row.id && isProject row.project

/-! ### Positions and the change log -/

/-- `[revision]` covers the whole revision, `[revision, key]` stops inside it. -/
inductive Position where
  | whole (revision : Nat)
  | inside (revision : Nat) (key : String)

/-- A place in the log.  The empty key stands for the whole revision. -/
structure Place where
  revision : Nat
  key : String
  deriving DecidableEq

/-- The entry is strictly after the place. -/
def Place.before (place : Place) (change : Change String) : Bool :=
  place.revision < change.revision ||
    (place.key ≠ "" && change.revision = place.revision && place.key < change.rowKey)

/-- An entry with the row that its key holds now. -/
structure LogEntry where
  change : Change String
  row : Option (Row String)

structure ChangeLogPage where
  revision : Nat
  changeFloor : Nat
  entries : List LogEntry

/-- `changesAfter`. -/
def changesAfter (c : Collection String) (place : Place) (limit : Nat) : ChangeLogPage where
  revision := c.revision
  changeFloor := c.changeFloor
  entries :=
    if c.revision = place.revision ∧ place.key = "" then []
    else
      (((c.changes.filter fun change => place.before change && change.revision ≤ c.revision).insertionSort
        changeBefore).take limit).map fun change => ⟨change, c.rows.get? change.rowKey⟩

/-- A key that `isPosition` accepts. -/
def isPositionKey (key : String) : Bool :=
  0 < (JsonText.units key).length && (JsonText.units key).length ≤ 64

/-- `[last[0]]` where the next entry starts another revision. -/
def ended (last : Position) (next : Nat) : Position :=
  match last with
  | .inside revision key => if revision ≠ next then .whole revision else .inside revision key
  | .whole revision => .whole revision

/-- The text behind a two character prefix. -/
def behind (first second : Char) (key : String) : Option String :=
  match key.toList with
  | a :: b :: rest => if a = first ∧ b = second then some (String.ofList rest) else none
  | _ => none

/-! ### Pages -/

def PAGE_ROWS : Nat := 200
def PAGE_BYTES : Nat := 512 * 1024
def LOG_BATCH : Nat := 400
def MAX_LOG_ENTRIES : Nat := 4000

inductive LogPage where
  | page (rows : List (WireRow × Nat)) (cursor : Position) (more : Bool) (withheld : List String)
  | resync

/-- The locals of `readLogPage`; the rows have their bytes. -/
structure Reading (ρ : Type) where
  context : PageContext ρ
  rows : List (WireRow × Nat)
  withheld : List String
  cursor : Place
  continuation : Position
  continuationCursor : Place
  scanned : Nat

/-- A row for a page, with its bytes, the id of its key and whether it is a stub. -/
structure FeedRow where
  row : WireRow
  bytes : Nat
  id : String
  stub : Bool

def rowOf (rows : TaskRows ρ τ) (checks : FeedChecks) (filter : FeedFilter) (context : PageContext ρ)
    (tombstone : String → Option TaskTombstone) (entry : LogEntry) : Option FeedRow :=
  (behind 't' ':' entry.change.rowKey).bind fun id =>
    match entry.change.operation with
    | .upsert =>
        -- A key changed again later reappears at its later pair.
        (entry.row.filter fun row => row.rowRevision = entry.change.revision).bind fun row =>
          ((rows.parse row.valueJson).filter (passesTask filter context)).map fun task =>
            let out := encoded checks filter (context.outbound task)
            { row := out.1, bytes := out.2, id := id, stub := match out.1 with | .stub _ => true | _ => false }
    | .delete =>
        ((if context.tombstones then tombstone id else none).filter (passesTombstone filter)).map fun tomb =>
          let gone : WireRow := .gone ⟨id, tomb.project, tomb.gone⟩
          { row := gone, bytes := checks.otherBytes gone, id := id, stub := false }

/-- `Page.add`: none where the row would pass a bound.  A malformed row is skipped. -/
def addRow (checks : FeedChecks) (r : Reading ρ) (row : FeedRow) : Option (Reading ρ) :=
  if !wellFormed checks row.row then some r
  else if r.rows.length ≥ PAGE_ROWS ||
      (r.rows.length > 0 && (r.rows.map (·.2)).sum + row.bytes > PAGE_BYTES) then none
  else some { r with
    rows := r.rows ++ [(row.row, row.bytes)]
    withheld := if row.stub then r.withheld ++ [row.id] else r.withheld }

/-- The cursor moves behind the entry; a long key is no position. -/
def Reading.advance (r : Reading ρ) (change : Change String) : Reading ρ :=
  let cursor : Place := ⟨change.revision, change.rowKey⟩
  { r with
    cursor := cursor
    continuation := if isPositionKey change.rowKey then .inside change.revision change.rowKey
      else r.continuation
    continuationCursor := if isPositionKey change.rowKey then cursor else r.continuationCursor
    scanned := r.scanned + 1 }

def addEntry (rows : TaskRows ρ τ) (checks : FeedChecks) (filter : FeedFilter)
    (tombstone : String → Option TaskTombstone) (r : Reading ρ) (entry : LogEntry) : Option (Reading ρ) :=
  match rowOf rows checks filter r.context tombstone entry with
  | none => some r
  | some row => addRow checks r row

/-- The loop over a batch: the page where it is full, or the locals after the batch. -/
def scanEntries (rows : TaskRows ρ τ) (checks : FeedChecks) (filter : FeedFilter)
    (tombstone : String → Option TaskTombstone) : Reading ρ → List LogEntry → Except LogPage (Reading ρ)
  | r, [] => .ok r
  | r, entry :: rest =>
      match addEntry rows checks filter tombstone r entry with
      | none => .error (.page r.rows (ended r.continuation entry.change.revision) true r.withheld)
      | some r' => scanEntries rows checks filter tombstone (r'.advance entry.change) rest

/-- What a batch comes to; a page may leave a checkpoint. -/
inductive Outcome (ρ : Type) where
  | reading (r : Reading ρ)
  | answered (page : LogPage) (checkpoint : Option (String × Place))

/-- One turn of the loop of `readLogPage`. -/
def readBatch (rows : TaskRows ρ τ) (checks : FeedChecks) (filter : FeedFilter)
    (tokenOf : Place → String) (c : Collection String) (tombstone : String → Option TaskTombstone)
    (r : Reading ρ) : Outcome ρ :=
  let batch := changesAfter c r.cursor LOG_BATCH
  if r.cursor.revision < batch.changeFloor || (r.cursor.revision = batch.changeFloor && r.cursor.key ≠ "") then
    .answered .resync none
  else match scanEntries rows checks filter tombstone r batch.entries with
    | .error page => .answered page none
    | .ok r =>
        if batch.entries.length < LOG_BATCH then
          .answered (.page r.rows (.whole batch.revision) false r.withheld) none
        else if r.scanned ≥ MAX_LOG_ENTRIES then
          if r.cursor ≠ r.continuationCursor then
            .answered (.page r.rows (.inside r.cursor.revision ("x:" ++ tokenOf r.cursor)) true r.withheld)
              (some (tokenOf r.cursor, r.cursor))
          else .answered (.page r.rows r.continuation true r.withheld) none
        else .reading r

/-! ### Walks -/

/-- Writers of the task collection: `patchSync` and the bounded patches, which delete nothing. -/
inductive TaskOperation (τ : Type) where
  | get (cost : Nat)
  | put (record : τ)

def TaskOperation.row : TaskOperation τ → RowOperation String τ
  | .get cost => .lookup cost
  | .put record => .put record

inductive TaskWrite (τ : Type) where
  | patchSync (records : List τ) (deleteKeys appendKeys : List String)
  | boundedPatch (limit : Nat) (operations : List (TaskOperation τ)) (companionRows : Nat)

def TaskWrite.apply (options : Options String τ) (c : Collection String) :
    TaskWrite τ → Except (Refusal String) (Collection String)
  | .patchSync records deleteKeys appendKeys =>
      persistReplacement options records true deleteKeys appendKeys c
  | .boundedPatch limit operations companionRows =>
      StateStore.boundedPatch options limit (operations.map TaskOperation.row) companionRows c

/-- What a batch found. -/
structure Observation (ρ : Type) where
  context : PageContext ρ
  tombstone : String → Option TaskTombstone
  collection : Collection String

/-- A walk from page to page.  `history` and `seen` are no state of the program: every entry that was ever
logged, and what each batch found. -/
structure Walk (ρ : Type) where
  collection : Collection String
  checkpoints : Entries String Place
  position : Position
  reading : Option (Reading ρ)
  pages : List LogPage
  history : List (Change String)
  seen : List (Observation ρ)

inductive Event (ρ τ : Type) where
  | write (write : TaskWrite τ)
  /-- `current` is what `resumeOmittedTasks` answered; `expired` that the position's checkpoint is gone. -/
  | openPage (context : PageContext ρ) (current : Nat) (expired : Bool)
  | batch (tombstone : String → Option TaskTombstone)

/-- The place of a position: a checkpoint's token is looked up. -/
def placeOf (checkpoints : Entries String Place) : Position → Option Place
  | .whole revision => some ⟨revision, ""⟩
  | .inside revision key =>
      match behind 'x' ':' key with
      | none => some ⟨revision, key⟩
      | some token => (checkpoints.at? token).filter fun place => place.revision = revision

/-- The walk ends at a resync or where no more is left. -/
def Walk.finished (w : Walk ρ) : Bool :=
  match w.pages.getLast? with
  | none => false
  | some .resync => true
  | some (.page _ _ more _) => !more

/-- A page is answered. -/
def Walk.answer (w : Walk ρ) (page : LogPage) (checkpoint : Option (String × Place)) :
    Walk ρ × Option LogPage :=
  ({ w with
    reading := none
    pages := w.pages ++ [page]
    position := match page with
      | .page _ cursor _ _ => cursor
      | .resync => w.position
    checkpoints := match checkpoint with
      | some entry => w.checkpoints.set entry
      | none => w.checkpoints }, some page)

/-- `readLogPage` up to its loop. -/
def Walk.openPage (w : Walk ρ) (context : PageContext ρ) (current : Nat) (expired : Bool) :
    Walk ρ × Option LogPage :=
  match placeOf (if expired then Table.empty else w.checkpoints) w.position with
  | none => w.answer .resync none
  | some place =>
      if place.revision > current then w.answer .resync none
      else if place.revision = current ∧ place.key = "" then w.answer (.page [] w.position false []) none
      else ({ w with reading := some {
        context := context
        rows := []
        withheld := []
        cursor := place
        continuation := w.position
        continuationCursor := place
        scanned := 0 } }, none)

/-- One event, with the page that it answers. -/
def Walk.step (rows : TaskRows ρ τ) (checks : FeedChecks) (filter : FeedFilter) (tokenOf : Place → String)
    (w : Walk ρ) : Event ρ τ → Walk ρ × Option LogPage
  | .write write =>
      match write.apply rows.options w.collection with
      | .error _ => (w, none)
      | .ok c => ({ w with collection := c, history := w.history ++ newEntries w.collection c }, none)
  | .openPage context current expired =>
      -- no revision is read before it is committed
      if w.reading.isSome || w.finished || w.collection.revision < current then (w, none)
      else w.openPage context current expired
  | .batch tombstone =>
      match w.reading with
      | none => (w, none)
      | some r =>
          let found : Observation ρ := { context := r.context, tombstone := tombstone, collection := w.collection }
          let w := { w with seen := w.seen ++ [found] }
          match readBatch rows checks filter tokenOf w.collection tombstone r with
          | .reading r => ({ w with reading := some r }, none)
          | .answered page checkpoint => w.answer page checkpoint

/-- A walk that begins. -/
def Walk.start (c : Collection String) (checkpoints : Entries String Place) (position : Position) : Walk ρ where
  collection := c
  checkpoints := checkpoints
  position := position
  reading := none
  pages := []
  history := c.changes
  seen := []

/-- The rows that the walk has so far. -/
def LogPage.rows : LogPage → List (WireRow × Nat)
  | .page rows _ _ _ => rows
  | .resync => []

def Walk.rows (w : Walk ρ) : List WireRow :=
  ((w.pages.flatMap LogPage.rows) ++ (w.reading.elim [] Reading.rows)).map Prod.fst

end Delegatus.TaskFeed
