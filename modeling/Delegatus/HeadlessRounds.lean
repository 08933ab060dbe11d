import Delegatus.HistoryRefinement
import Delegatus.OrderedLists
import Mathlib.Data.String.Basic

/-!
# Headless rounds

`historyHeadlessFlows` answers the rounds of headless reviewers.  The answer is kept, and a later read
takes in only the flows that the change log names; a log that was cut past the kept revision makes it
load everything again.  `pruneHistoryHeadlessRounds` moves rounds whose reviewer is dead out of the
answer into indexes of their own.

A row object has an identity: the rows of two queries are different objects, also where they say the
same.  A view of the answer is given by its row.
-/

namespace Delegatus.History

open RowGroups OrderedLists

/-! ### The queries -/

structure HeadlessRow where
  rowKey : String
  round : ℕ
  rowOrder : Int
  reviewerPath : Option String
  reviewerConversationId : Option String
  reviewerPid : Int
  reviewerIdentity : Option String
deriving DecidableEq

structure RowObject where
  id : ℕ
  row : HeadlessRow
deriving DecidableEq

/-- `history_rounds r JOIN history_inputs p`. -/
def joinRound (db : Db) (round : RoundRow) : Option HeadlessRow :=
  (group InputRow.ref db.inputs ⟨.flows, round.rowKey⟩).head?.map fun input =>
    ⟨round.rowKey, round.round, input.rowOrder, round.reviewerPath, round.reviewerConversationId,
      round.reviewerPid, round.reviewerIdentity⟩

/-- `ORDER BY p.row_order, p.row_key, r.round`. -/
def queryOrder (a b : HeadlessRow) : Bool :=
  a.rowOrder < b.rowOrder || (a.rowOrder = b.rowOrder &&
    (a.rowKey < b.rowKey || (a.rowKey = b.rowKey && a.round ≤ b.round)))

def heldRounds (db : Db) : List HeadlessRow := db.rounds.filterMap (joinRound db)

/-- The full query. -/
def fullRounds (db : Db) : List HeadlessRow := (heldRounds db).mergeSort queryOrder

/-- The query of one flow. -/
def flowRounds (db : Db) (flowKey : String) : List HeadlessRow :=
  ((group RoundRow.rowKey db.rounds flowKey).filterMap (joinRound db)).mergeSort fun a b => a.round ≤ b.round

/-- The flows that changed after a revision. -/
def changedFlows (db : Db) (revision : ℕ) : List String :=
  ((db.revisions.flowChanges.filter fun change => revision < change.1).map Prod.snd).dedup

/-! ### The cache -/

structure HeadlessCache where
  /-- The identity of the array of flows. -/
  array : ℕ
  revision : ℕ
  rows : List RowObject
  rowsByFlow : Entries String (List RowObject)
  flows : List RowObject
  views : Entries ℕ RowObject
  viewBytes : Entries ℕ ℕ
  deadByFlow : Entries String (List RowObject)
  deadByPath : Entries String (List RowObject)
  deadByConversation : Entries String (List RowObject)
  flowBytes : Int
  deadBytes : Int
  bytes : Int

def HEADLESS_CACHE_BYTES : Int := 16 * 1024 * 1024

/-- The byte lengths of the JSON texts of a view and of a row. -/
structure Sizes where
  view : HeadlessRow → ℕ
  row : HeadlessRow → ℕ

/-- A value that is neither null nor empty. -/
def truthy (value : Option String) : Option String := value.filter (· ≠ "")

section Cache

variable (localeCompare : String → String → Int) (sizes : Sizes)

def rowOrder (left right : HeadlessRow) : Int :=
  if left.rowOrder - right.rowOrder ≠ 0 then left.rowOrder - right.rowOrder
  else if localeCompare left.rowKey right.rowKey ≠ 0 then localeCompare left.rowKey right.rowKey
  else (left.round : Int) - right.round

/-- `rowOrder` of row objects, and `flowOrder` of their views. -/
def objectOrder (left right : RowObject) : Int := rowOrder localeCompare left.row right.row

/-- A row leaves the walk. -/
def dropRow (cache : HeadlessCache) (object : RowObject) : HeadlessCache :=
  { cache with
    rows := removeOrdered (objectOrder localeCompare) cache.rows object
    flows := (cache.views.at? object.id).elim cache.flows (removeOrdered (objectOrder localeCompare) cache.flows)
    flowBytes := cache.flowBytes - (cache.viewBytes.at? object.id).getD 0
    views := cache.views.delete object.id
    viewBytes := cache.viewBytes.delete object.id }

/-- A row joins the walk. -/
def addRow (cache : HeadlessCache) (object : RowObject) : HeadlessCache :=
  { cache with
    rows := insertOrdered (objectOrder localeCompare) cache.rows object
    flows := insertOrdered (objectOrder localeCompare) cache.flows object
    views := cache.views.set (object.id, object)
    viewBytes := cache.viewBytes.set (object.id, sizes.view object.row + 8)
    flowBytes := cache.flowBytes + (sizes.view object.row + 8 : ℕ) }

def addDeadOwner (cache : HeadlessCache) (object : RowObject) : HeadlessCache :=
  { cache with
    deadByFlow := indexOwner cache.deadByFlow (some object.row.rowKey) object
    deadByPath := indexOwner cache.deadByPath (truthy object.row.reviewerPath) object
    deadByConversation := indexOwner cache.deadByConversation (truthy object.row.reviewerConversationId) object
    deadBytes := cache.deadBytes + (sizes.row object.row + 8 : ℕ) }

def removeDeadOwner (cache : HeadlessCache) (object : RowObject) : HeadlessCache :=
  { cache with
    deadByFlow := unindexOwner cache.deadByFlow (some object.row.rowKey) object
    deadByPath := unindexOwner cache.deadByPath (truthy object.row.reviewerPath) object
    deadByConversation := unindexOwner cache.deadByConversation (truthy object.row.reviewerConversationId) object
    deadBytes := cache.deadBytes - (sizes.row object.row + 8 : ℕ) }

/-- The objects that a query makes; `heap` has the rows of the objects made so far. -/
def allocate (heap rows : List HeadlessRow) : List RowObject :=
  rows.mapIdx fun index row => ⟨heap.length + index, row⟩

/-- The full query, with its indexes. -/
def loadCache (db : Db) (heap : List HeadlessRow) (array : ℕ) : HeadlessCache :=
  let rows := allocate heap (fullRounds db)
  let flowBytes : ℕ := (rows.map fun object => sizes.view object.row + 8).sum + 2
  { array := array
    revision := db.revisions.flowRevision
    rows := rows
    rowsByFlow := rows.foldl (fun index object => indexOwner index (some object.row.rowKey) object) Table.empty
    flows := rows
    views := rows.foldl (fun views object => views.set (object.id, object)) Table.empty
    viewBytes := rows.foldl (fun bytes object => bytes.set (object.id, sizes.view object.row + 8)) Table.empty
    deadByFlow := Table.empty
    deadByPath := Table.empty
    deadByConversation := Table.empty
    flowBytes := flowBytes
    deadBytes := 0
    bytes := flowBytes }

/-- One changed flow: its rows and its dead rounds leave, the rows that the tables have come. -/
def changeFlow (db : Db) (held : List HeadlessRow × HeadlessCache) (flowKey : String) :
    List HeadlessRow × HeadlessCache :=
  let (heap, cache) := held
  let cache := ((cache.rowsByFlow.at? flowKey).getD []).foldl (dropRow localeCompare) cache
  let cache := { cache with rowsByFlow := cache.rowsByFlow.delete flowKey }
  let cache := ((cache.deadByFlow.at? flowKey).getD []).foldl (removeDeadOwner sizes) cache
  let cache := { cache with deadByFlow := cache.deadByFlow.delete flowKey }
  let rows := flowRounds db flowKey
  let objects := allocate heap rows
  let cache := if objects.isEmpty then cache
    else objects.foldl (addRow localeCompare sizes)
      { cache with rowsByFlow := cache.rowsByFlow.set (flowKey, objects) }
  (heap ++ rows, cache)

/-- The state that the readers of the process share, for one database file and generation. -/
structure Shared where
  heap : List HeadlessRow
  arrays : ℕ
  cache : Option HeadlessCache

/-- A cache beyond the byte bound is dropped. -/
def bounded (cache : HeadlessCache) : Option HeadlessCache :=
  if cache.bytes ≤ HEADLESS_CACHE_BYTES then some cache else none

def loadFlows (db : Db) (shared : Shared) : Shared × List RowObject :=
  let cache := loadCache sizes db shared.heap shared.arrays
  (⟨shared.heap ++ fullRounds db, shared.arrays + 1, bounded cache⟩, cache.flows)

/-- The log no longer holds all changes since the cached revision. -/
def behind (db : Db) (cache : HeadlessCache) : Bool :=
  cache.revision + 4096 < db.revisions.flowRevision ||
    (cache.revision < db.revisions.flowRevision && (changedFlows db cache.revision).isEmpty)

def historyHeadlessFlows (db : Db) (shared : Shared) : Shared × List RowObject :=
  match shared.cache with
  | none => loadFlows sizes db shared
  | some cache =>
    if cache.revision ≠ db.revisions.flowRevision then
      if behind db cache then loadFlows sizes db shared
      else
        let (heap, cache) := (changedFlows db cache.revision).foldl (changeFlow localeCompare sizes db)
          (shared.heap, cache)
        let cache := { cache with
          revision := db.revisions.flowRevision
          bytes := cache.flowBytes + cache.deadBytes }
        ({ shared with heap := heap, cache := bounded cache }, cache.flows)
    else (shared, cache.flows)

def pruneRow (cache : HeadlessCache) (object : RowObject) : HeadlessCache :=
  let cache := dropRow localeCompare cache object
  addDeadOwner sizes
    { cache with rowsByFlow := unindexOwner cache.rowsByFlow (some object.row.rowKey) object } object

/-- The row objects among the rounds of a prune, each once. -/
def movedRows (shared : Shared) (rounds : List ℕ) : List RowObject :=
  (rounds.filterMap fun id => (shared.heap[id]?).map fun row => ⟨id, row⟩).dedup

def pruneHistoryHeadlessRounds (shared : Shared) (array : ℕ) (rounds : List ℕ) : Shared :=
  match shared.cache with
  | none => shared
  | some cache =>
    if cache.array ≠ array ∨ (movedRows shared rounds).isEmpty then shared
    else
      let cache := (movedRows shared rounds).foldl (pruneRow localeCompare sizes) cache
      { shared with cache := bounded { cache with bytes := cache.flowBytes + cache.deadBytes } }

def historyHeadlessDeadRounds (shared : Shared) (array : ℕ) (path : Option String) (conversationIds : List String) :
    List RowObject :=
  match shared.cache with
  | none => []
  | some cache =>
    if cache.array ≠ array then []
    else
      (((truthy path).elim [] fun path => (cache.deadByPath.at? path).getD []) ++
        conversationIds.flatMap fun id => (cache.deadByConversation.at? id).getD []).dedup

/-! ### Runs -/

/-- The tables and what the readers of one process share.  `pruned` records the calls, not the code's
state: the rounds pruned since the read that took in the last change of their flow, or loaded all. -/
structure Walks (ρ : Type*) where
  state : State ρ
  shared : Shared
  pruned : List (String × ℕ)

inductive WalkEvent (ρ : Type*)
  /-- A writer, or a projection of any process. -/
  | tables (event : Event ρ)
  | read
  | prune (array : ℕ) (rounds : List ℕ)
  /-- The caches of other files push this one out. -/
  | evict

def roundKey (row : HeadlessRow) : String × ℕ := (row.rowKey, row.round)

/-- The record after a read. -/
def prunedAfterRead (db : Db) (cache : Option HeadlessCache) (pruned : List (String × ℕ)) : List (String × ℕ) :=
  match cache with
  | none => []
  | some cache =>
    if cache.revision ≠ db.revisions.flowRevision then
      if behind db cache then [] else pruned.filter fun round => round.1 ∉ changedFlows db cache.revision
    else pruned

/-- The record after a prune: the rounds of the walk that it moved. -/
def prunedAfterPrune (shared : Shared) (array : ℕ) (rounds : List ℕ) (pruned : List (String × ℕ)) :
    List (String × ℕ) :=
  match shared.cache with
  | none => pruned
  | some cache =>
    if cache.array ≠ array then pruned
    else pruned ++ ((movedRows shared rounds).filter (· ∈ cache.rows)).map fun object => roundKey object.row

variable (dateParse : String → Option Int) {ρ : Type*} [DecidableEq ρ]

/-- The answer is that of a read. -/
def walkStep (s : Walks ρ) : WalkEvent ρ → Walks ρ × Option (List RowObject)
  | .tables event => ({ s with state := (step dateParse s.state event).1 }, none)
  | .read =>
    let (shared, flows) := historyHeadlessFlows localeCompare sizes s.state.db s.shared
    ({ s with shared := shared, pruned := prunedAfterRead s.state.db s.shared.cache s.pruned }, some flows)
  | .prune array rounds =>
    ({ s with
        shared := pruneHistoryHeadlessRounds localeCompare sizes s.shared array rounds
        pruned := prunedAfterPrune s.shared array rounds s.pruned }, none)
  | .evict => ({ s with shared := { s.shared with cache := none } }, none)

end Cache

end Delegatus.History
