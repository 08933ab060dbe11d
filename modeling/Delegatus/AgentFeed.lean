import Delegatus.Refusals
import Delegatus.Table
import Mathlib.Data.List.Induction
import Mathlib.Data.List.Sort

/-!
# The agent feed of one link and its receiver

`AgentFeed` keeps the selected agent and lane rows of the shared projects, each under the version of
its last change, and a marker for each removed row.  Markers are bounded: `floor` is the version up
to which they may be gone.  `page` answers a receiver's cursor with the changes after it, cut to a
page, or, when the cursor is of no use, with a page of a snapshot of all rows.

`acceptAgents` applies one answer.  A snapshot is gathered beside the held rows and takes their
place with its last page.  The receiver bounds what it holds: fifty agent rows for each project, 200
agent rows and 200 lanes in all.

`Exchange` is one feed with one receiver, which asks with its last accepted cursor.  The answer
stays until the next one is asked for: it may never be accepted, or more than once.
-/

namespace Delegatus.AgentFeed

/-- `a:` and sixteen hexadecimal digits, or `l:` and eight: the digits as a number. -/
inductive Key
  | agent (digits : ℕ)
  | lane (digits : ℕ)
deriving DecidableEq

def isLaneKey : Key → Bool
  | .agent _ => false
  | .lane _ => true

def Key.digits : Key → ℕ
  | .agent digits => digits
  | .lane digits => digits

variable {γ : Type*}

/-- An agent row or a lane row; `rest` are the fields that are only compared. -/
structure Row (γ : Type*) where
  k : Key
  p : String
  seat : Bool
  time : Int
  rest : γ
deriving DecidableEq

/-- An entry of a page: a row, or the marker of a removed one. -/
inductive Change (γ : Type*)
  | put (row : Row γ)
  | gone (k : Key)

def Change.key : Change γ → Key
  | .put row => row.k
  | .gone k => k

structure Versioned (γ : Type*) where
  row : Row γ
  version : ℕ
deriving DecidableEq

def Versioned.key (item : Versioned γ) : Key := item.row.k

def Versioned.entry (item : Versioned γ) : ℕ × Change γ := (item.version, .put item.row)

structure Marker where
  k : Key
  version : ℕ
  time : Int

def Marker.entry (item : Marker) : ℕ × Change γ := (item.version, .gone item.k)

structure Cursor where
  epoch : String
  version : ℕ
deriving DecidableEq

structure Part (γ : Type*) where
  rows : List (Change γ)
  reset : Bool
  more : Bool
  cursor : Cursor

/-! ### The sender -/

structure Snapshot (γ : Type*) where
  /-- The cursor that the snapshot answers; `none` is `initial`. -/
  key : Option Cursor
  rows : List (Row γ)
  cursor : Cursor

structure Feed (γ : Type*) where
  epoch : String
  rows : Table (Versioned.key : Versioned γ → Key)
  markers : List Marker
  version : ℕ
  resetSnapshot : Option (Snapshot γ)
  floor : ℕ

/-- `new AgentFeed(id)`. -/
def newFeed (epoch : String) : Feed γ := ⟨epoch, Table.empty, [], 0, none, 0⟩

def MAX_LANE_ROWS : ℕ := 200

/-- What a refresh that finds its sources changed reads: the agent rows, one for each key, and what
`laneRowsFor` answers, which stops at `MAX_LANE_ROWS`.  All rows are of the shared projects. -/
structure Sources (γ : Type*) (projects : List String) where
  agents : Table (Row.k : Row γ → Key)
  lanes : Table (Row.k : Row γ → Key)
  privacyChanged : Bool
  agents_key : ∀ row ∈ agents.rows, isLaneKey row.k = false
  lanes_key : ∀ row ∈ lanes.rows, isLaneKey row.k = true
  lanes_length : lanes.rows.length ≤ MAX_LANE_ROWS
  shared : ∀ row ∈ agents.rows ++ lanes.rows, row.p ∈ projects

/-- Seats first, and then the newest: `Number(!!b.seat) - Number(!!a.seat) || b.at - a.at`. -/
def seatOrder (a b : Row γ) : Bool :=
  if a.seat = b.seat then decide (b.time ≤ a.time) else a.seat

/-- `seatOrder`, and then `a.k.localeCompare(b.k)`. -/
def selectOrder (a b : Row γ) : Bool :=
  if a.seat = b.seat ∧ a.time = b.time then decide (a.k.digits ≤ b.k.digits) else seatOrder a b

/-- At most fifty rows of each project, in order. -/
def capProjects (rows : List (Row γ)) : List (Row γ) :=
  rows.foldl (fun kept row =>
    if 50 ≤ (kept.filter fun other => other.p = row.p).length then kept else kept ++ [row]) []

theorem capProjects_concat (rows : List (Row γ)) (row : Row γ) :
    capProjects (rows ++ [row]) =
      if 50 ≤ ((capProjects rows).filter fun other => other.p = row.p).length then capProjects rows
      else capProjects rows ++ [row] := by
  rw [capProjects, List.foldl_append]
  rfl

theorem capProjects_sublist (rows : List (Row γ)) : (capProjects rows).Sublist rows := by
  induction rows using List.reverseRecOn with
  | nil => exact List.Sublist.refl _
  | append_singleton rows row ih =>
    rw [capProjects_concat]
    split
    · exact ih.trans (List.sublist_append_left _ _)
    · exact ih.append (List.Sublist.refl _)

/-- The rows that both sides keep of a sorted list. -/
def bounded (rows : List (Row γ)) : List (Row γ) := (capProjects rows).take 200

/-- The rows that the feed wants, in the order in which it takes them. -/
def wanted {projects : List String} (sources : Sources γ projects) : List (Row γ) :=
  bounded (sources.agents.rows.insertionSort fun a b => selectOrder a b) ++ sources.lanes.rows

def Feed.remove (feed : Feed γ) (now : Int) (k : Key) : Feed γ :=
  { feed with
    rows := feed.rows.delete k
    markers := feed.markers ++ [⟨k, feed.version + 1, now⟩]
    version := feed.version + 1 }

def Feed.put [DecidableEq γ] (feed : Feed γ) (privacyChanged : Bool) (row : Row γ) : Feed γ :=
  let same := !privacyChanged && decide ((feed.rows.get? row.k).map Versioned.row = some row)
  if same then feed
  else { feed with rows := feed.rows.set ⟨row, feed.version + 1⟩, version := feed.version + 1 }

def pruneMarkers (feed : Feed γ) (now : Int) : Feed γ :=
  let fresh := feed.markers.filter fun item => now - item.time < 3600000
  let kept := fresh.drop (fresh.length - 200)
  let pruned := feed.markers.take (feed.markers.length - kept.length)
  { feed with markers := kept, floor := pruned.foldl (fun floor marker => max floor marker.version) feed.floor }

theorem bounded_sublist (rows : List (Row γ)) : (bounded rows).Sublist rows :=
  (List.take_sublist _ _).trans (capProjects_sublist rows)

variable {projects : List String}

/-- `refresh`: `none` when the cache fence finds no source changed. -/
def refresh [DecidableEq γ] (feed : Feed γ) (now : Int) : Option (Sources γ projects) → Feed γ
  | none => pruneMarkers feed now
  | some sources =>
    let rows := wanted sources
    let feed := if sources.privacyChanged then { feed with resetSnapshot := none } else feed
    let removed := (feed.rows.rows.map Versioned.key).filter fun k => !rows.any fun row => row.k = k
    let feed := removed.foldl (fun feed k => feed.remove now k) feed
    let feed := rows.foldl (fun feed row => feed.put sources.privacyChanged row) feed
    pruneMarkers feed now

def PAGE_ENTRIES : ℕ := 50

def PAGE_BYTES : ℕ := 80000

/-- The loop of `cut`: `taken` says whether an entry was taken, `size` is what was counted. -/
def cutLoop {α : Type*} (bytes : α → ℕ) : List α → Bool → ℕ → List α
  | [], _, _ => []
  | item :: rest, taken, size =>
    if taken = true ∧ PAGE_BYTES < size + bytes item + 1 then []
    else item :: cutLoop bytes rest true (size + bytes item + 1)

def cut {α : Type*} (bytes : α → ℕ) (items : List α) (start : ℕ) : List α :=
  cutLoop bytes ((items.drop start).take PAGE_ENTRIES) false 0

/-- All rows, lanes last, and each kind from the newest. -/
def snapshotRows (feed : Feed γ) : List (Row γ) :=
  (feed.rows.rows.map Versioned.row).insertionSort fun a b =>
    if isLaneKey a.k = isLaneKey b.k then b.time ≤ a.time else isLaneKey b.k = true

/-- The entries after a version, oldest first. -/
def changesAfter (feed : Feed γ) (version : ℕ) : List (ℕ × Change γ) :=
  let rows : List (ℕ × Change γ) := feed.rows.rows.map Versioned.entry
  let markers : List (ℕ × Change γ) := feed.markers.map Marker.entry
  ((rows ++ markers).filter fun entry => version < entry.1).insertionSort fun a b => a.1 ≤ b.1

/-- The cursor is of no use: there is none, it is of another feed, or markers after it may be gone. -/
def needsReset (feed : Feed γ) : Option Cursor → Bool
  | none => true
  | some after =>
    decide (after.epoch ≠ feed.epoch) || decide (after.version < feed.floor) ||
      decide (feed.version < after.version)

variable (bytes : Change γ → ℕ)

def deltaPage (feed : Feed γ) (after : Cursor) : Feed γ × Part γ :=
  let changes := changesAfter feed after.version
  let page := cut (fun change => bytes change.2) changes 0
  ({ feed with resetSnapshot := none },
    { rows := page.map Prod.snd
      reset := false
      more := page.length < changes.length
      cursor := ⟨feed.epoch, (page.getLast?.map Prod.fst).getD feed.version⟩ })

def resetPage (feed : Feed γ) (after : Option Cursor) (offset : ℕ) : Feed γ × Part γ :=
  let current := feed.resetSnapshot.filter fun snapshot => snapshot.key = after
  let snapshot := current.getD ⟨after, snapshotRows feed, ⟨feed.epoch, feed.version⟩⟩
  let start := if current.isSome then offset else 0
  let rows := cut (fun row => bytes (.put row)) snapshot.rows start
  let more := start + rows.length < snapshot.rows.length
  ({ feed with resetSnapshot := if more then some snapshot else none },
    { rows := rows.map .put, reset := start = 0, more := more, cursor := snapshot.cursor })

/-- `page`, after its refresh. -/
def page (feed : Feed γ) (after : Option Cursor) (offset : ℕ) : Feed γ × Part γ :=
  match after with
  | some cursor =>
    if needsReset feed after then resetPage bytes feed after offset else deltaPage bytes feed cursor
  | none => resetPage bytes feed after offset

/-! ### The receiver -/

/-- The rows by key: `Map<string, AgentRow>` and `Map<string, LaneRow>`. -/
structure Rows (γ : Type*) where
  rows : Table (Row.k : Row γ → Key)
  lanes : Table (Row.k : Row γ → Key)
  rows_key : ∀ row ∈ rows.rows, isLaneKey row.k = false
  lanes_key : ∀ row ∈ lanes.rows, isLaneKey row.k = true

def Rows.empty : Rows γ where
  rows := Table.empty
  lanes := Table.empty
  rows_key _ h := nomatch h
  lanes_key _ h := nomatch h

structure Reset (γ : Type*) where
  cursor : Cursor
  rows : Rows γ

structure Held (γ : Type*) where
  rows : Rows γ
  reset : Option (Reset γ)

def Rows.delete (held : Rows γ) (k : Key) : Rows γ where
  rows := if isLaneKey k then held.rows else held.rows.delete k
  lanes := if isLaneKey k then held.lanes.delete k else held.lanes
  rows_key row hrow := by
    split at hrow
    · exact held.rows_key row hrow
    · exact held.rows_key row (Table.mem_delete.mp hrow).1
  lanes_key row hrow := by
    split at hrow
    · exact held.lanes_key row (Table.mem_delete.mp hrow).1
    · exact held.lanes_key row hrow

def Rows.set (held : Rows γ) (row : Row γ) : Rows γ where
  rows := if isLaneKey row.k then held.rows else held.rows.set row
  lanes := if isLaneKey row.k then held.lanes.set row else held.lanes
  rows_key other hother := by
    split at hother
    · exact held.rows_key other hother
    · next hkey =>
      rcases Table.mem_set.mp hother with rfl | ⟨hold, -⟩
      · simpa using hkey
      · exact held.rows_key other hold
  lanes_key other hother := by
    split at hother
    · next hkey =>
      rcases Table.mem_set.mp hother with rfl | ⟨hold, -⟩
      · exact hkey
      · exact held.lanes_key other hold
    · exact held.lanes_key other hother

/-- One entry: a marker deletes, a row of a shared project is set. -/
def applyChange (projects : List String) (held : Rows γ) : Change γ → Rows γ
  | .gone k => held.delete k
  | .put row => if row.p ∈ projects then held.set row else held

/-- Rows that were chosen from a table form one again. -/
def chosen (t : Table (Row.k : Row γ → Key)) (rows : List (Row γ)) (sorted : List (Row γ))
    (hperm : sorted.Perm t.rows) (hsub : rows.Sublist sorted) : Table (Row.k : Row γ → Key) :=
  ⟨rows, ((hperm.map Row.k).nodup_iff.mpr t.nodup).sublist (hsub.map Row.k)⟩

/-- Fifty rows of a project and 200 in all, when there are more than fifty. -/
def boundRows (t : Table (Row.k : Row γ → Key)) : Table (Row.k : Row γ → Key) :=
  if 50 < t.rows.length then
    chosen t (bounded (t.rows.insertionSort fun a b => seatOrder a b)) _
      (List.perm_insertionSort _ _) (bounded_sublist _)
  else t

/-- The newest lanes, when there are more than `MAX_LANE_ROWS`. -/
def boundLanes (t : Table (Row.k : Row γ → Key)) : Table (Row.k : Row γ → Key) :=
  if MAX_LANE_ROWS < t.rows.length then
    chosen t ((t.rows.insertionSort fun a b =>
        if a.time = b.time then a.k.digits ≤ b.k.digits else b.time ≤ a.time).take MAX_LANE_ROWS) _
      (List.perm_insertionSort _ _) (List.take_sublist _ _)
  else t

theorem mem_of_mem_boundRows {t : Table (Row.k : Row γ → Key)} {row : Row γ}
    (h : row ∈ (boundRows t).rows) : row ∈ t.rows := by
  unfold boundRows at h
  split at h
  · exact (List.perm_insertionSort _ _).mem_iff.mp ((bounded_sublist _).subset h)
  · exact h

theorem mem_of_mem_boundLanes {t : Table (Row.k : Row γ → Key)} {row : Row γ}
    (h : row ∈ (boundLanes t).rows) : row ∈ t.rows := by
  unfold boundLanes at h
  split at h
  · exact (List.perm_insertionSort _ _).mem_iff.mp ((List.take_sublist _ _).subset h)
  · exact h

def boundAll (held : Rows γ) : Rows γ where
  rows := boundRows held.rows
  lanes := boundLanes held.lanes
  rows_key row hrow := held.rows_key row (mem_of_mem_boundRows hrow)
  lanes_key row hrow := held.lanes_key row (mem_of_mem_boundLanes hrow)

/-- The rows of the projects that are still shared. -/
def keepShared (projects : List String) (held : Rows γ) : Rows γ where
  rows := held.rows.filter fun row => row.p ∈ projects
  lanes := held.lanes.filter fun row => row.p ∈ projects
  rows_key row hrow := held.rows_key row (Table.mem_filter.mp hrow).1
  lanes_key row hrow := held.lanes_key row (Table.mem_filter.mp hrow).1

/-- The rows that the entries of an answer are applied to: those of a reset while one is gathered. -/
def targetOf (held : Held γ) (part : Part γ) : Rows γ :=
  if part.reset then Rows.empty else (held.reset.map Reset.rows).getD held.rows

/-- `acceptAgents`; `none` when the answer is refused. -/
def acceptAgents (projects : List String) (held : Held γ) (part : Part γ) : Option (Held γ) :=
  if PAGE_ENTRIES < part.rows.length then none
  else if !part.reset && held.reset.any fun reset => reset.cursor ≠ part.cursor then none
  else
    let applied := boundAll (part.rows.foldl (applyChange projects) (targetOf held part))
    let held : Held γ :=
      if part.reset = true ∨ held.reset.isSome then
        -- The last page puts the gathered rows in the place of the held ones.
        if part.more then { held with reset := some ⟨part.cursor, applied⟩ } else ⟨applied, none⟩
      else { held with rows := applied }
    some { held with rows := keepShared projects held.rows }

/-- How many rows of a reset the receiver has gathered. -/
def offsetOf (held : Held γ) : ℕ :=
  held.reset.elim 0 fun reset => reset.rows.rows.rows.length + reset.rows.lanes.rows.length

/-! ### The exchange -/

structure Exchange (γ : Type*) where
  feed : Feed γ
  held : Held γ
  /-- The last accepted cursor. -/
  pull : Option Cursor
  /-- The last answer. -/
  answer : Option (Part γ)
  /-- The last answer that was accepted. -/
  accepted : Option (Part γ)
  clock : Int

def initial (epoch : String) : Exchange γ := ⟨newFeed epoch, ⟨Rows.empty, none⟩, none, none, none, 0⟩

inductive Event (γ : Type*) (projects : List String)
  /-- The feed is refreshed; the sources are `none` when none has changed. -/
  | refresh (now : Int) (sources : Option (Sources γ projects))
  /-- The receiver asks, and `page` refreshes and answers. -/
  | ask (now : Int) (sources : Option (Sources γ projects))
  | accept

def step [DecidableEq γ] (s : Exchange γ) : Event γ projects → Except Unit (Exchange γ)
  | .refresh now sources =>
    if now < s.clock then .error ()
    else .ok { s with feed := refresh s.feed now sources, clock := now }
  | .ask now sources =>
    if now < s.clock then .error ()
    else
      let answer := page bytes (refresh s.feed now sources) s.pull (offsetOf s.held)
      .ok { s with feed := answer.1, answer := some answer.2, clock := now }
  | .accept =>
    match s.answer with
    | none => .error ()
    | some part =>
      match acceptAgents projects s.held part with
      | none => .error ()
      | some held =>
        let resetting := part.reset || decide (0 < offsetOf s.held)
        .ok { s with
          held := held
          pull := if part.more && resetting then s.pull else some part.cursor
          accepted := some part }

end Delegatus.AgentFeed
