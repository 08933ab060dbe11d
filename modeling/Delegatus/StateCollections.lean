import Mathlib.Data.List.Sort
import Mathlib.Data.List.Dedup
import Delegatus.JsonText
import Delegatus.Refusals
import Delegatus.Table

/-!
# The committed rows of the state store

A collection of the SQLite state store is its `state_collections` row, its `state_rows` and
its `state_changes`.  Each writer runs in one transaction: what it throws rolls the
transaction back, so a writer here gives the committed collection or the refusal.

The leases that admit a writer and the hooks it calls before the commit only ever refuse.
Row keys are ordered by SQLite's `BINARY` collation, and the empty key is `∅`.
-/

namespace Delegatus.StateStore

open JsonText (Text)

/-! ### Tables and options -/

/-- A row of `state_rows`. -/
structure Row (κ : Type*) where
  rowKey : κ
  valueJson : Text
  rowOrder : Nat
  rowRevision : Nat
  controllerActive : Bool
deriving DecidableEq

inductive Operation where
  | upsert
  | delete
deriving DecidableEq

/-- A row of `state_changes`. -/
structure Change (κ : Type*) where
  revision : Nat
  rowKey : κ
  operation : Operation
deriving DecidableEq

/-- One collection: the `revision` and `change_floor` of its `state_collections` row, its
rows and its change log. -/
structure Collection (κ : Type*) where
  revision : Nat
  changeFloor : Nat
  rows : Table (Row.rowKey : Row κ → κ)
  changes : List (Change κ)

/-- What a collection's decoder makes of a row's text: it throws, it rejects the value, or
it gives a record. -/
inductive Decoded (τ : Type*) where
  | thrown
  | rejected
  | record (value : τ)

/-- `SqliteStateCollectionOptions`.  `stringify` is `JSON.stringify` on the collection's
records; `validate` is false where the option throws. -/
structure Options (κ τ : Type*) where
  key : τ → κ
  stringify : τ → Text
  decode : Text → Decoded τ
  controllerActive : τ → Bool
  validate : τ → Bool
  strictDecode : Bool
  preserveRejectedRecords : Bool

/-- What a writer or a reader throws. -/
inductive Refusal (κ : Type*) where
  | missing
  | alreadySeeded
  | emptyKey
  | invalidRecord
  | duplicateKey
  | invalidDeletion
  | preserved (key : κ)
  | unreadable
  | loggedTwice (key : κ)
  | patchLimit
  | patchBudget
  | sameCollection

variable {κ τ : Type} [LinearOrder κ] [EmptyCollection κ]

/-! ### Reading one row -/

/-- `decodeRow`: a rejected value is thrown again only by a strict collection that does not
preserve rejected records. -/
def decodeRow (options : Options κ τ) (valueJson : Text) : Except (Refusal κ) (Option τ) :=
  match options.decode valueJson with
  | .record value => .ok (some value)
  | .rejected =>
    if options.strictDecode && !options.preserveRejectedRecords then .error .unreadable else .ok none
  | .thrown =>
    if options.strictDecode || options.preserveRejectedRecords then .error .unreadable else .ok none

/-- The row decodes, to a record or to nothing. -/
def readable (options : Options κ τ) (row : Row κ) : Except (Refusal κ) Unit :=
  (decodeRow options row.valueJson).map fun _ => ()

/-- The record of a row that decodes to one. -/
def recordOf (options : Options κ τ) (row : Row κ) : Option τ :=
  match decodeRow options row.valueJson with
  | .ok value => value
  | .error _ => none

/-- `protectedRow` of a readable row. -/
def protectedRow (options : Options κ τ) (row : Row κ) : Bool :=
  options.preserveRejectedRecords && (recordOf options row).isNone

/-- `validate`. -/
def validate (options : Options κ τ) (record : τ) : Except (Refusal κ) Unit :=
  if options.key record = ∅ then .error .emptyKey
  else if options.validate record then .ok () else .error .invalidRecord

/-- `assertRowWritable`. -/
def assertRowWritable (options : Options κ τ) (c : Collection κ) (key : κ) :
    Except (Refusal κ) Unit :=
  if !options.preserveRejectedRecords then .ok ()
  else match c.rows.get? key with
    | none => .ok ()
    | some row =>
      (readable options row).bind fun _ =>
        if protectedRow options row then .error (.preserved key) else .ok ()

/-! ### Statements -/

/-- `COALESCE(MAX(row_order), -1) + 1`. -/
def nextOrder (c : Collection κ) : Nat :=
  match (c.rows.rows.map Row.rowOrder).max? with
  | none => 0
  | some last => last + 1

/-- `INSERT … ON CONFLICT DO UPDATE` that sets every column. -/
def upsertRow (c : Collection κ) (row : Row κ) : Collection κ :=
  { c with rows := c.rows.set row }

/-- `INSERT … ON CONFLICT DO UPDATE` that leaves the `row_order` of a held row. -/
def upsertKeepingOrder (c : Collection κ) (row : Row κ) : Collection κ :=
  match c.rows.get? row.rowKey with
  | none => upsertRow c row
  | some held => upsertRow c { row with rowOrder := held.rowOrder }

def deleteRow (c : Collection κ) (key : κ) : Collection κ :=
  { c with rows := c.rows.delete key }

/-- `INSERT INTO state_changes`, under its primary key. -/
def insertChange (c : Collection κ) (change : Change κ) : Except (Refusal κ) (Collection κ) :=
  if c.changes.any (fun held => held.revision = change.revision ∧ held.rowKey = change.rowKey) then
    .error (.loggedTwice change.rowKey)
  else .ok { c with changes := c.changes ++ [change] }

def CHANGE_RETENTION_REVISIONS : Nat := 1024

def CHANGE_PRUNE_BATCH : Nat := 1000

/-- `ORDER BY revision, row_key`. -/
def changeBefore (a b : Change κ) : Prop :=
  a.revision < b.revision ∨ (a.revision = b.revision ∧ a.rowKey ≤ b.rowKey)

instance (a b : Change κ) : Decidable (changeBefore a b) :=
  inferInstanceAs (Decidable (_ ∨ _))

/-- `pruneChanges`: one batch of the entries up to the cutoff goes, and the floor moves to
the cutoff whether or not the batch held them all. -/
def pruneChanges (c : Collection κ) (revision : Nat) : Collection κ :=
  let cutoff := revision - CHANGE_RETENTION_REVISIONS
  if cutoff = 0 then c
  else
    let batch := ((c.changes.filter (fun change => change.revision ≤ cutoff)).insertionSort
      changeBefore).take CHANGE_PRUNE_BATCH
    { c with
      changes := c.changes.filter (fun change => change ∉ batch)
      changeFloor := max c.changeFloor cutoff }

/-- `UPDATE state_collections SET revision` and the pruning after it. -/
def finish (c : Collection κ) (revision : Nat) : Collection κ :=
  pruneChanges { c with revision := revision } revision

/-! ### One planned write

Every writer but `boundedPatch` reads first, then runs its upserts and deletions, each with
its entry in the change log. -/

/-- A record that is about to be written, and the row its key holds. -/
structure Prepared (κ : Type*) where
  key : κ
  valueJson : Text
  controllerActive : Bool
  held : Option (Row κ)

def prepare (options : Options κ τ) (c : Collection κ) (record : τ) : Prepared κ where
  key := options.key record
  valueJson := options.stringify record
  controllerActive := options.controllerActive record
  held := c.rows.get? (options.key record)

/-- `held?.value_json !== valueJson`. -/
def Prepared.newText (entry : Prepared κ) : Bool :=
  match entry.held with
  | none => true
  | some row => row.valueJson ≠ entry.valueJson

/-- The text or the controller flag is another one than the held row's. -/
def Prepared.changed (entry : Prepared κ) : Bool :=
  entry.newText || match entry.held with
    | none => true
    | some row => row.controllerActive ≠ entry.controllerActive

def Prepared.row (entry : Prepared κ) (revision order : Nat) : Row κ where
  rowKey := entry.key
  valueJson := entry.valueJson
  rowOrder := order
  rowRevision := revision
  controllerActive := entry.controllerActive

/-- `place(entry) ?? next++` over the entries. -/
def numbered (place : Prepared κ → Option Nat) :
    Nat → List (Prepared κ) → List (Prepared κ × Nat)
  | _, [] => []
  | next, entry :: rest =>
    match place entry with
    | some order => (entry, order) :: numbered place next rest
    | none => (entry, next) :: numbered place (next + 1) rest

/-- The row order an entry's key holds. -/
def Prepared.heldOrder (entry : Prepared κ) : Option Nat := entry.held.map Row.rowOrder

/-- The rows and the keys that a write upserts and deletes. -/
structure Plan (κ : Type*) where
  upserts : List (Row κ)
  deletes : List κ

def Plan.isEmpty (plan : Plan κ) : Bool := plan.upserts.isEmpty && plan.deletes.isEmpty

/-- `upsert.run(…); change.run(…, "upsert")`. -/
def logUpsert (upsert : Collection κ → Row κ → Collection κ) (c : Collection κ) (row : Row κ) :
    Except (Refusal κ) (Collection κ) :=
  insertChange (upsert c row) ⟨row.rowRevision, row.rowKey, .upsert⟩

/-- `remove.run(…); change.run(…, "delete")`. -/
def logDelete (revision : Nat) (c : Collection κ) (key : κ) :
    Except (Refusal κ) (Collection κ) :=
  insertChange (deleteRow c key) ⟨revision, key, .delete⟩

/-- The statements of one planned write, up to its revision and its pruning. -/
def writePlan (upsert : Collection κ → Row κ → Collection κ) (c : Collection κ) (plan : Plan κ)
    (revision : Nat) : Except (Refusal κ) (Collection κ) := do
  let upserted ← Refusals.run (logUpsert upsert) c plan.upserts
  let written ← Refusals.run (logDelete revision) upserted plan.deletes
  .ok (finish written revision)

/-! ### Writers -/

/-- `persistChangedRows`: the rows that a checkpoint names or found dirty. -/
def persistChangedRows (options : Options κ τ) (records : List τ) (c : Collection κ) :
    Except (Refusal κ) (Collection κ) := do
  Refusals.all (validate options) records
  Refusals.all (fun record => assertRowWritable options c (options.key record)) records
  let actual := (records.map (prepare options c)).filter Prepared.changed
  let rows := (numbered Prepared.heldOrder (nextOrder c) actual).map fun entry =>
    entry.1.row (c.revision + 1) entry.2
  if actual.isEmpty then .ok c
  else writePlan upsertKeepingOrder c ⟨rows, []⟩ (c.revision + 1)

/-- `mergeRows`: a companion write, under the companion's own revision.  A record whose text
is the held one is left alone, also where its controller flag is another one. -/
def mergeRows (options : Options κ τ) (records : List τ) (deleteKeys : List κ)
    (c : Collection κ) : Except (Refusal κ) (Collection κ) := do
  Refusals.all (validate options) records
  Refusals.all (fun record => assertRowWritable options c (options.key record)) records
  Refusals.all (assertRowWritable options c) deleteKeys
  let upserts := (records.map (prepare options c)).filter Prepared.newText
  let deletes := deleteKeys.filter c.rows.has
  let rows := (numbered Prepared.heldOrder (nextOrder c) upserts).map fun entry =>
    entry.1.row (c.revision + 1) entry.2
  if upserts.isEmpty && deletes.isEmpty then .ok c
  else writePlan upsertKeepingOrder c ⟨rows, deletes⟩ (c.revision + 1)

/-- What `persistReplacement` writes when it merges: the changed records, each at the order
its key holds unless the key is to be appended, and the requested deletions. -/
def mergePlan (options : Options κ τ) (records : List τ) (deleteKeys appendKeys : List κ)
    (c : Collection κ) : Plan κ where
  upserts :=
    let changed := (records.map (prepare options c)).filter Prepared.changed
    let place := fun entry : Prepared κ =>
      if entry.key ∈ appendKeys then none else entry.heldOrder
    (numbered place (nextOrder c) changed).map fun entry => entry.1.row (c.revision + 1) entry.2
  deletes := deleteKeys.filter c.rows.has

/-- What `persistReplacement` writes when it replaces: each record at its index, and the
deletion of every other row that is not protected. -/
def replacePlan (options : Options κ τ) (records : List τ) (c : Collection κ) : Plan κ where
  upserts :=
    let encoded := (records.map (prepare options c)).zipIdx
    let changed := encoded.filter fun entry =>
      entry.1.changed || entry.1.heldOrder ≠ some entry.2
    changed.map fun entry => entry.1.row (c.revision + 1) entry.2
  deletes := (c.rows.rows.filter fun row =>
    !(records.map options.key).contains row.rowKey && !protectedRow options row).map Row.rowKey

/-- `persistReplacement`. -/
def persistReplacement (options : Options κ τ) (records : List τ) (mergeOmitted : Bool)
    (deleteKeys appendKeys : List κ) (c : Collection κ) : Except (Refusal κ) (Collection κ) := do
  Refusals.all (validate options) records
  let seen := records.map options.key
  if ¬seen.Nodup then .error .duplicateKey
  else if ¬deleteKeys.Nodup ∨ deleteKeys.any (fun key => key = ∅ ∨ key ∈ seen) then
    .error .invalidDeletion
  else do
    Refusals.all (assertRowWritable options c) (seen ++ deleteKeys)
    -- the protected keys are found by decoding every row
    Refusals.all (readable options) (if options.preserveRejectedRecords then c.rows.rows else [])
    let plan := if mergeOmitted then mergePlan options records deleteKeys appendKeys c
      else replacePlan options records c
    if plan.isEmpty then .ok c else writePlan upsertRow c plan (c.revision + 1)

/-! ### Bounded patches -/

/-- What the callback of a bounded patch does with its transaction.  Every operation spends
budget; a lookup spends some for each row it returns. -/
inductive RowOperation (κ τ : Type*) where
  | lookup (cost : Nat)
  | put (record : τ)
  | delete (key : κ)

/-- The transaction of a bounded patch: the rows as written so far, the budget left, and the
`changed` map. -/
structure BoundedTransaction (κ : Type*) where
  collection : Collection κ
  remaining : Nat
  changed : Table (Prod.fst : κ × Operation → κ)

/-- `consume`, `cost` times. -/
def consume (tx : BoundedTransaction κ) (cost : Nat) :
    Except (Refusal κ) (BoundedTransaction κ) :=
  if tx.remaining < cost then .error .patchBudget
  else .ok { tx with remaining := tx.remaining - cost }

/-- One operation of the callback.  A new row goes after every row of the collection; the
order of a held one stays. -/
def applyOperation (options : Options κ τ) (revision : Nat) (tx : BoundedTransaction κ) :
    RowOperation κ τ → Except (Refusal κ) (BoundedTransaction κ)
  | .lookup cost => consume tx cost
  | .put record => do
    let tx ← consume tx 1
    validate options record
    let key := options.key record
    assertRowWritable options tx.collection key
    let row := (prepare options tx.collection record).row revision (nextOrder tx.collection)
    .ok { tx with
      collection := upsertKeepingOrder tx.collection row
      changed := tx.changed.set (key, .upsert) }
  | .delete key => do
    let tx ← consume tx 1
    assertRowWritable options tx.collection key
    .ok { tx with
      collection := deleteRow tx.collection key
      changed := tx.changed.set (key, .delete) }

/-- One entry of the `changed` map goes into the change log. -/
def logChange (revision : Nat) (c : Collection κ) (entry : κ × Operation) :
    Except (Refusal κ) (Collection κ) :=
  insertChange c ⟨revision, entry.1, entry.2⟩

/-- `boundedPatch` on its own collection.  `companionRows` is the budget that the rows of a
companion patch spend before the log entries are written. -/
def boundedPatch (options : Options κ τ) (limit : Nat) (operations : List (RowOperation κ τ))
    (companionRows : Nat) (c : Collection κ) : Except (Refusal κ) (Collection κ) :=
  if limit < 1 ∨ 4096 < limit then .error .patchLimit
  else do
    let tx ← Refusals.run (applyOperation options (c.revision + 1)) ⟨c, limit, Table.empty⟩
      operations
    let tx ← consume tx companionRows
    if tx.changed.rows.isEmpty then .ok tx.collection
    else do
      let logged ← Refusals.run (logChange (c.revision + 1)) tx.collection tx.changed.rows
      .ok (finish logged (c.revision + 1))

/-! ### Moving rows -/

/-- `ORDER BY row_order, row_key`. -/
def rowBefore (a b : Row κ) : Prop :=
  a.rowOrder < b.rowOrder ∨ (a.rowOrder = b.rowOrder ∧ a.rowKey ≤ b.rowKey)

instance (a b : Row κ) : Decidable (rowBefore a b) := inferInstanceAs (Decidable (_ ∨ _))

/-- The page of rows after `(afterOrder, afterKey)` that `moveMatchingTo` reads. -/
def pageRows (c : Collection κ) (afterOrder : Int) (afterKey : κ) (throughOrder : Int) :
    List (Row κ) :=
  ((c.rows.rows.filter fun row =>
    afterOrder ≤ row.rowOrder ∧ (afterOrder < row.rowOrder ∨ afterKey < row.rowKey) ∧
      row.rowOrder ≤ throughOrder).insertionSort rowBefore).take 16

/-- The rows of a page whose record the predicate selects. -/
def selectRows (options : Options κ τ) (predicate : τ → Bool) (rows : List (Row κ)) :
    List (Row κ × τ) :=
  rows.filterMap fun row => ((recordOf options row).filter predicate).map fun record => (row, record)

/-- One page of `moveMatchingTo`, in one transaction: the collections it leaves. -/
def movePage (options targetOptions : Options κ τ) (predicate : τ → Bool) (afterOrder : Int)
    (afterKey : κ) (throughOrder : Int) (source target : Collection κ) :
    Except (Refusal κ) (Collection κ × Collection κ) := do
  let page := pageRows source afterOrder afterKey throughOrder
  Refusals.all (readable options) page
  let selected := selectRows options predicate page
  if selected.isEmpty then .ok (source, target)
  else do
    let records := selected.map Prod.snd
    Refusals.all (validate targetOptions) records
    Refusals.all (fun record => assertRowWritable targetOptions target (targetOptions.key record))
      records
    let prepared := numbered Prepared.heldOrder (nextOrder target)
      (records.map (prepare targetOptions target))
    let changed := prepared.filter fun entry => entry.1.changed
    let rows := changed.map fun entry => entry.1.row (target.revision + 1) entry.2
    let target ← if changed.isEmpty then .ok target
      else writePlan upsertKeepingOrder target ⟨rows, []⟩ (target.revision + 1)
    let source ← writePlan upsertRow source ⟨[], selected.map fun entry => entry.1.rowKey⟩
      (source.revision + 1)
    .ok (source, target)

/-! ### Seeding -/

/-- A record that a first import writes. -/
structure ImportRow (κ : Type*) where
  key : κ
  valueJson : Text
  controllerActive : Bool

/-- `insertSeed` and `importStateCollection`: the rows in their order, under revision 1 if
there are any. -/
def insertSeed (rows : List (ImportRow κ)) : Except (Refusal κ) (Collection κ) :=
  if rows.any (fun row => row.key = ∅) ∨ ¬(rows.map ImportRow.key).Nodup then .error .duplicateKey
  else
    let revision := if rows.isEmpty then 0 else 1
    .ok {
      revision := revision
      changeFloor := 0
      rows := Table.ofList (rows.zipIdx.map fun entry =>
        ⟨entry.1.key, entry.1.valueJson, entry.2, revision, entry.1.controllerActive⟩)
      changes := [] }

end Delegatus.StateStore
