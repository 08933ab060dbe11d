import Delegatus.Runs
import Delegatus.StateWriters

/-!
# Writers of one collection and its lease

Writers that take turns by a durable lease, and controllers that work on a detached
snapshot.  A `mutate` session holds the lease from before it reads to after its last
checkpoint.  A `reconcileSnapshot` session reads rows without a lease, remembers the
revision of each, and takes the lease for one checkpoint at a time: inside the checkpoint's
transaction it compares the revisions of the rows it is about to replace, and after the
commit it reads their new revisions back.  A bounded patch and `patchSync` read and write in
one transaction.

The lease may be found stale at any acquisition, and its holder is not told.  Every call is
one transaction, or one statement that reads.  What a writer commits is computed by an
arbitrary function of the rows it has read, so the calls carry that function.
-/

namespace Delegatus.StateLeases

open StateStore
open Refusals (bind_eq_ok)

variable {ω κ τ : Type} [DecidableEq ω] [LinearOrder κ] [EmptyCollection κ]

/-- Rows as some reader has them. -/
abbrev View (κ : Type) := κ → Option (Row κ)

/-- What a writer holds between two of its steps. -/
inductive Session (κ : Type) where
  /-- `mutate`: its lease's token, and the rows as read under the lease or committed since. -/
  | mutating (token : Nat) (view : Option (View κ))
  /-- `reconcileSnapshot`: the `expected` revisions, and the rows as read or committed last.
  During a checkpoint it has a token, and the keys committed under it. -/
  | reconciling (expected : κ → Option Nat) (view : View κ) (checkpoint : Option (Nat × List κ))
  /-- `boundedPatch` or `patchSync`. -/
  | patching (token : Nat)

/-- The token of the lease that the session acquired last and has not released. -/
def Session.token : Session κ → Option Nat
  | .mutating token _ => some token
  | .reconciling _ _ checkpoint => checkpoint.map Prod.fst
  | .patching token => some token

/-- The collection, its row of `state_leases`, and the sessions of its writers.  Tokens are
drawn once each. -/
structure State (ω κ : Type) where
  collection : Collection κ
  lease : Option Nat
  nextToken : Nat
  sessions : ω → Option (Session κ)

inductive Call (ω κ τ : Type) where
  /-- `acquireLease` of a `mutate`, a bounded patch or a `patchSync`; a held lease is taken
  over where it is found stale. -/
  | beginMutate (writer : ω) (stale : Bool)
  | beginPatch (writer : ω) (stale : Bool)
  /-- The read of a `mutate` session. -/
  | load (writer : ω)
  /-- `persist` of a `mutate` session. -/
  | persist (writer : ω) (structural : Bool) (compute : View κ → List τ)
  | beginSnapshot (writer : ω)
  /-- One row of `prepareControllerSnapshot`: its header, and the payload of that revision. -/
  | readRow (writer : ω) (key : κ)
  /-- `acquireLease` of a snapshot's checkpoint. -/
  | beginCheckpoint (writer : ω) (stale : Bool)
  /-- The transaction of a snapshot's checkpoint. -/
  | checkpoint (writer : ω) (compute : View κ → List τ)
  /-- The revisions read back after a checkpoint's commit. -/
  | readBack (writer : ω)
  | endCheckpoint (writer : ω) (released : Bool)
  | boundedPatch (writer : ω) (limit : Nat) (operations : View κ → List (RowOperation κ τ))
  | patchSync (writer : ω) (prepare : View κ → List τ × List κ × List κ)
  /-- The session's end.  A release that fails, or a crash, leaves the lease behind. -/
  | finish (writer : ω) (released : Bool)

inductive Answer (κ : Type) where
  | done
  | busy
  | leaseLost
  | snapshotChanged
  | refused (refusal : Refusal κ)
  /-- A transaction that committed, and the rows its write was computed from. -/
  | committed (view : View κ)

def setSession (s : State ω κ) (writer : ω) (session : Option (Session κ)) : State ω κ :=
  { s with sessions := Function.update s.sessions writer session }

/-- `tryAcquireLease`: the new token, unless a live lease is held. -/
def tryAcquireLease (s : State ω κ) (stale : Bool) : Option (State ω κ × Nat) :=
  if s.lease.isSome && !stale then none
  else some ({ s with lease := some s.nextToken, nextToken := s.nextToken + 1 }, s.nextToken)

/-- `deleteLease`: only the lease of that token goes. -/
def deleteLease (s : State ω κ) (token : Nat) : State ω κ :=
  if s.lease = some token then { s with lease := none } else s

/-- The transaction of a writer under its lease: `assertLease`, then the write. -/
def transact (s : State ω κ) (token : Nat) (view : View κ)
    (write : Collection κ → Except (Refusal κ) (Collection κ)) : State ω κ × Answer κ :=
  if s.lease ≠ some token then (s, .leaseLost)
  else match write s.collection with
    | .error refusal => (s, .refused refusal)
    | .ok collection => ({ s with collection := collection }, .committed view)

/-- `assertCurrent` of one record. -/
def current (s : State ω κ) (expected : κ → Option Nat) (key : κ) : Bool :=
  (expected key).isSome && (s.collection.rows.get? key).map Row.rowRevision = expected key

/-- One proof for each `∈` of keys that a definition decides. -/
local instance lawfulKeys {α : Type} [LinearOrder α] : LawfulBEq α := inferInstance

/-- The view with the keys' committed rows in it. -/
def overlay (view : View κ) (keys : List κ) (c : Collection κ) : View κ :=
  fun key => if key ∈ keys then c.rows.get? key else view key

/-- `expected` with the present revisions of the committed keys that still have a row. -/
def refresh (expected : κ → Option Nat) (keys : List κ) (c : Collection κ) : κ → Option Nat :=
  fun key =>
    if key ∈ keys then
      match c.rows.get? key with
      | some row => some row.rowRevision
      | none => expected key
    else expected key

/-- Begins a session that holds the lease. -/
def beginSession (s : State ω κ) (writer : ω) (stale : Bool) (session : Nat → Session κ) :
    State ω κ × Answer κ :=
  match tryAcquireLease s stale with
  | none => (s, .busy)
  | some (acquired, token) => (setSession acquired writer (some (session token)), .done)

/-- A session's end, with or without its lease. -/
def endSession (s : State ω κ) (token : Option Nat) (released : Bool) (writer : ω)
    (session : Option (Session κ)) : State ω κ :=
  match token with
  | some token => setSession (if released then deleteLease s token else s) writer session
  | none => setSession s writer session

/-- One call.  A call that does not fit the writer's session is not one the code makes. -/
def step (options : Options κ τ) (s : State ω κ) (call : Call ω κ τ) : State ω κ × Answer κ :=
  match call with
  | .beginMutate writer stale =>
    match s.sessions writer with
    | none => beginSession s writer stale fun token => .mutating token none
    | some _ => (s, .done)
  | .beginPatch writer stale =>
    match s.sessions writer with
    | none => beginSession s writer stale fun token => .patching token
    | some _ => (s, .done)
  | .load writer =>
    match s.sessions writer with
    | some (.mutating token none) =>
      (setSession s writer (some (.mutating token (some s.collection.rows.get?))), .done)
    | _ => (s, .done)
  | .persist writer structural compute =>
    match s.sessions writer with
    | some (.mutating token (some view)) =>
      let write := if structural then
          persistReplacement options (compute view) false [] []
        else persistChangedRows options (compute view)
      match transact s token view write with
      | (s, .committed view) =>
        (setSession s writer (some (.mutating token (some s.collection.rows.get?))), .committed view)
      | refused => refused
    | _ => (s, .done)
  | .beginSnapshot writer =>
    match s.sessions writer with
    | none => (setSession s writer (some (.reconciling (fun _ => none) (fun _ => none) none)), .done)
    | some _ => (s, .done)
  | .readRow writer key =>
    match s.sessions writer with
    | some (.reconciling expected view none) =>
      match s.collection.rows.get? key with
      | some row =>
        if row.controllerActive then
          (setSession s writer (some (.reconciling
            (Function.update expected key (some row.rowRevision))
            (Function.update view key (some row)) none)), .done)
        else (s, .done)
      | none => (s, .done)
    | _ => (s, .done)
  | .beginCheckpoint writer stale =>
    match s.sessions writer with
    | some (.reconciling expected view none) =>
      match beginSession s writer stale fun token =>
          .reconciling expected view (some (token, [])) with
      | (s, .busy) => (s, .snapshotChanged)
      | begun => begun
    | _ => (s, .done)
  | .checkpoint writer compute =>
    match s.sessions writer with
    | some (.reconciling expected view (some (token, []))) =>
      let records := compute view
      let keys := records.map options.key
      if s.lease = some token ∧ keys.any (fun key => !current s expected key) then
        (s, .snapshotChanged)
      else match transact s token view (persistChangedRows options records) with
        | (s, .committed view) =>
          (setSession s writer (some (.reconciling expected (overlay view keys s.collection)
            (some (token, keys)))), .committed view)
        | refused => refused
    | _ => (s, .done)
  | .readBack writer =>
    match s.sessions writer with
    | some (.reconciling expected view (some (token, keys))) =>
      (setSession s writer (some (.reconciling (refresh expected keys s.collection) view
        (some (token, keys)))), .done)
    | _ => (s, .done)
  | .endCheckpoint writer released =>
    match s.sessions writer with
    | some (.reconciling expected view (some (token, _))) =>
      (endSession s (some token) released writer (some (.reconciling expected view none)), .done)
    | _ => (s, .done)
  | .boundedPatch writer limit operations =>
    match s.sessions writer with
    | some (.patching token) =>
      let view := s.collection.rows.get?
      transact s token view (StateStore.boundedPatch options limit (operations view) 0)
    | _ => (s, .done)
  | .patchSync writer prepare =>
    match s.sessions writer with
    | some (.patching token) =>
      let view := s.collection.rows.get?
      let patch := prepare view
      transact s token view (persistReplacement options patch.1 true patch.2.1 patch.2.2)
    | _ => (s, .done)
  | .finish writer released =>
    match s.sessions writer with
    | some session => (endSession s session.token released writer none, .done)
    | none => (s, .done)

end Delegatus.StateLeases
