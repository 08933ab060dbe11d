import Delegatus.OwnedLocks
import Delegatus.Refusals
import Mathlib.Data.List.Sort
import Mathlib.Order.Defs.LinearOrder

/-!
# The writer lock of the runtime images

A writer passes an acquisition gate for each attempt: it writes a ticket, waits until its ticket
is the first live one, and makes the gate directory with its owner file.  A gate whose owner file
cannot be read is taken for a dead one and removed.  Inside the gate the writer makes the lock
directory and its owner file, or, when a lock is there that is old and whose owner does not live,
reclaims it: the lock is renamed away, its inode is compared with the one that was observed, and
another lock is renamed back.  A writer that finds its own token in the lock runs its section.

Each call of the file system is one step; a write is the exclusive creation of the file and the
writing of its text, and a recursive removal is the removal of the owner file and of the
directory.  Paths are resolved when the step is taken.
-/

namespace Delegatus.RuntimeImages

open OwnedLocks Refusals

variable {κ π τ : Type*}

/-- The owner that a ticket and a gate name: the writer, and the ticket, which is drawn anew for
each passage of the gate. -/
structure Token (κ τ : Type*) where
  writer : κ
  ticket : τ
deriving DecidableEq

/-- A lock directory, told from all others by its inode number. -/
structure Dir (κ : Type*) where
  maker : κ
  number : ℕ
deriving DecidableEq

/-- The lock as `lstat` observed it, with the owner file that it had. -/
structure Observed (κ : Type*) where
  dir : Dir κ
  file : Option (OwnedFile κ)
deriving DecidableEq

/-- Where a writer is in `withWriterAcquisitionGate`, before it has the gate. -/
inductive Gate (κ τ : Type*)
  /-- The ticket's owner is written. -/
  | ticketing
  /-- `readdirSync(queue)`. -/
  | listing
  /-- `readOwnerFile(candidate)`, with the names that come after it and the first live ticket. -/
  | scanning (candidate : τ) (rest : List τ) (first : Option τ)
  /-- `writerLockOwnerIsAlive` of the candidate's owner. -/
  | probing (candidate : τ) (owner : κ) (rest : List τ) (first : Option τ)
  /-- `rmSync(candidate)`. -/
  | discarding (candidate : τ) (rest : List τ) (first : Option τ)
  /-- `mkdirSync(gate)`. -/
  | making
  /-- The exclusive creation of the gate's owner file. -/
  | stamping
  /-- The gate's owner is written. -/
  | signing
  /-- After `EEXIST`: the gate's owner is read. -/
  | doubting
  /-- `writerLockOwnerIsAlive` of the gate's owner. -/
  | suspecting (owner : κ)
  /-- `rmSync(gate)`: its owner file. -/
  | emptying
  /-- `rmSync(gate)`: the directory. -/
  | removing
deriving DecidableEq

/-- Where a writer is in the attempt that the gate protects. -/
inductive Attempt (κ : Type*)
  /-- `mkdirSync(lock)`. -/
  | making
  /-- The exclusive creation of the owner file, after the writer made `dir`. -/
  | naming (dir : Dir κ)
  /-- The owner is written into the file that was created in `opened`. -/
  | filling (dir opened : Dir κ)
  /-- `rmSync(lock)` after a failed write: the owner file. -/
  | spoiling (dir : Dir κ)
  /-- `rmSync(lock)` after a failed write: the directory. -/
  | clearing (dir : Dir κ)
  /-- `lstatSync(lock)` after `EEXIST`. -/
  | observing
  /-- The owner of the old lock is read. -/
  | judging (observed : Observed κ)
  /-- `writerLockOwnerIsAlive` of the owner that was read. -/
  | checking (observed : Observed κ) (owner : κ)
  /-- `reclaimStaleWriterLock`: `renameSync(lock, graveyard)`. -/
  | reclaiming (observed : Observed κ)
  /-- `reclaimStaleWriterLock`: `lstatSync(graveyard)`. -/
  | comparing (observed : Observed κ) (stolen : Dir κ)
  /-- `reclaimStaleWriterLock`: `renameSync(graveyard, lock)`. -/
  | restoring (stolen : Dir κ)
deriving DecidableEq

/-- How an attempt ended. -/
inductive Outcome (κ : Type*)
  | acquired (dir : Dir κ)
  | again
  | thrown
deriving DecidableEq

/-- The `finally` of `withWriterAcquisitionGate`. -/
inductive Leave
  /-- The gate's token is read. -/
  | reading
  /-- `rmSync(gate)`: its owner file. -/
  | emptying
  /-- `rmSync(gate)`: the directory. -/
  | removing
  /-- `rmSync(ticket)`. -/
  | dequeueing
deriving DecidableEq

/-- The file system call that a writer makes next. -/
inductive Phase (κ τ : Type*)
  /-- The head of the loop: the ticket is created. -/
  | queueing
  | gating (ticket : τ) (place : Gate κ τ)
  | attempting (ticket : τ) (place : Attempt κ)
  | leaving (ticket : τ) (outcome : Outcome κ) (place : Leave)
  /-- The final verification of the lock's token. -/
  | verifying (dir : Dir κ)
  /-- `run(root)`. -/
  | running (dir : Dir κ)
  /-- The `finally` of `withWriterLock`: the lock's token is read. -/
  | closing (dir : Dir κ)
  /-- `rmSync(lock)`: its owner file. -/
  | unlinking (dir : Dir κ)
  /-- `rmSync(lock)`: the directory. -/
  | clearing (dir : Dir κ)
  | done
deriving DecidableEq

structure State (κ π τ : Type*) where
  lock : Option (Dir κ)
  /-- The owner file of each lock directory. -/
  file : Dir κ → Option (OwnedFile κ)
  /-- The inode number of the next directory. -/
  next : ℕ
  /-- The gate directory with its owner file. -/
  gate : Option (Option (OwnedFile (Token κ τ)))
  tickets : List (OwnedFile (Token κ τ))
  /-- The names of all tickets that were ever created. -/
  drawn : List τ
  phase : κ → Phase κ τ
  crashed : π → Bool

def initial : State κ π τ where
  lock := none
  file _ := none
  next := 0
  gate := none
  tickets := []
  drawn := []
  phase _ := .queueing
  crashed _ := false

inductive Event (κ π τ : Type*)
  /-- A writer at the head of its loop draws a new ticket. -/
  | queue (writer : κ) (ticket : τ)
  /-- The writer's next call; `answer` is what it learns where the state leaves this open. -/
  | step (writer : κ) (answer : Bool)
  /-- The deadline has passed. -/
  | busy (writer : κ)
  | crash (process : π)

/-- The lock directory that a writer made and works with. -/
def Attempt.dir? : Attempt κ → Option (Dir κ)
  | .naming dir | .filling dir _ | .spoiling dir | .clearing dir => some dir
  | _ => none

def Outcome.dir? : Outcome κ → Option (Dir κ)
  | .acquired dir => some dir
  | _ => none

def Phase.dir? : Phase κ τ → Option (Dir κ)
  | .attempting _ attempt => attempt.dir?
  | .leaving _ outcome _ => outcome.dir?
  | .verifying dir | .running dir | .closing dir | .unlinking dir | .clearing dir => some dir
  | _ => none

/-- The text of an owner file that parses. -/
def readOwner {α : Type*} : Option (OwnedFile α) → Option α
  | some ⟨owner, true⟩ => some owner
  | _ => none

variable [DecidableEq κ]

def State.goto (s : State κ π τ) (writer : κ) (phase : Phase κ τ) : State κ π τ :=
  { s with phase := Function.update s.phase writer phase }

/-- `readWriterLockOwner(lock)`. -/
def readLockOwner (s : State κ π τ) : Option κ :=
  readOwner (s.lock.bind s.file)

def State.setFile (s : State κ π τ) (dir : Dir κ) (file : Option (OwnedFile κ)) : State κ π τ :=
  { s with file := Function.update s.file dir file }

/-- `unlink` of the lock's owner file. -/
def State.unlink (s : State κ π τ) : State κ π τ :=
  match s.lock with
  | none => s
  | some dir => s.setFile dir none

/-- The lock is old: its owner file can be read, or no live writer works on it any more. -/
def mayBeOld (process : κ → π) (s : State κ π τ) (dir : Dir κ) : Bool :=
  (readOwner (s.file dir)).isSome || s.crashed (process dir.maker) ||
    (s.phase dir.maker).dir? ≠ some dir

variable [LinearOrder τ] (process : κ → π)

/-! ### The acquisition gate -/

/-- The scan goes on with the next name, or ends with the first live ticket: the gate is tried
when that is the writer's own. -/
def scan (own : τ) (first : Option τ) : List τ → Gate κ τ
  | candidate :: rest => .scanning candidate rest first
  | [] => if first = some own then .making else .listing

def withoutTicket (ticket : τ) (tickets : List (OwnedFile (Token κ τ))) :
    List (OwnedFile (Token κ τ)) :=
  tickets.filter fun file => file.owner.ticket ≠ ticket

/-- The next call of a writer that waits for the gate. -/
def withWriterAcquisitionGate (s : State κ π τ) (self : κ) (ticket : τ) (answer : Bool) :
    Gate κ τ → Except Unit (State κ π τ)
  | .ticketing =>
    if answer then
      .ok { s.goto self (.gating ticket .listing) with
        tickets := s.tickets.map fun file =>
          if file.owner = ⟨self, ticket⟩ then { file with written := true } else file }
    else .ok (s.goto self .done)
  | .listing =>
    .ok (s.goto self (.gating ticket
      (scan ticket none ((s.tickets.map fun file => file.owner.ticket).insertionSort (· ≤ ·)))))
  | .scanning candidate rest first =>
    match readOwner (s.tickets.find? fun file => file.owner.ticket = candidate) with
    | none => .ok (s.goto self (.gating ticket (.discarding candidate rest first)))
    | some owner => .ok (s.goto self (.gating ticket (.probing candidate owner.writer rest first)))
  | .probing candidate owner rest first =>
    if s.crashed (process owner) then
      .ok (s.goto self (.gating ticket (.discarding candidate rest first)))
    else .ok (s.goto self (.gating ticket (scan ticket (first.or (some candidate)) rest)))
  | .discarding candidate rest first =>
    .ok { s.goto self (.gating ticket (scan ticket first rest)) with
      tickets := withoutTicket candidate s.tickets }
  | .making =>
    match s.gate with
    | none => .ok { s.goto self (.gating ticket .stamping) with gate := some none }
    | some _ => .ok (s.goto self (.gating ticket .doubting))
  | .stamping =>
    match s.gate with
    -- The directory was removed: `ENOENT` leaves the gate.
    | none => .ok (s.goto self (.leaving ticket .thrown .dequeueing))
    | some none =>
      .ok { s.goto self (.gating ticket .signing) with gate := some (some ⟨⟨self, ticket⟩, false⟩) }
    | some (some _) => .ok (s.goto self (.gating ticket .doubting))
  | .signing =>
    if answer then
      .ok { s.goto self (.attempting ticket .making) with
        gate := s.gate.map (mark ⟨self, ticket⟩) }
    else .ok (s.goto self (.leaving ticket .thrown .dequeueing))
  | .doubting =>
    match readOwner (s.gate.bind id) with
    | none => .ok (s.goto self (.gating ticket .emptying))
    | some owner => .ok (s.goto self (.gating ticket (.suspecting owner.writer)))
  | .suspecting owner =>
    .ok (s.goto self (.gating ticket (if s.crashed (process owner) then .emptying else .listing)))
  | .emptying =>
    .ok { s.goto self (.gating ticket .removing) with gate := s.gate.map fun _ => none }
  | .removing =>
    match s.gate with
    | some (some _) =>
      -- `ENOTEMPTY`: the removal begins anew, or fails.
      if answer then .ok (s.goto self (.gating ticket .emptying))
      else .ok (s.goto self (.leaving ticket .thrown .dequeueing))
    | _ => .ok { s.goto self (.gating ticket .listing) with gate := none }

/-- The next call of a writer that leaves the gate. -/
def leaveGate (s : State κ π τ) (self : κ) (ticket : τ) (outcome : Outcome κ) (answer : Bool) :
    Leave → Except Unit (State κ π τ)
  | .reading =>
    .ok (s.goto self (.leaving ticket outcome
      (if readOwner (s.gate.bind id) = some ⟨self, ticket⟩ then .emptying else .dequeueing)))
  | .emptying =>
    .ok { s.goto self (.leaving ticket outcome .removing) with gate := s.gate.map fun _ => none }
  | .removing =>
    match s.gate with
    | some (some _) =>
      if answer then .ok (s.goto self (.leaving ticket outcome .emptying))
      else
        -- The failed removal leaves the writer lock through its `finally`.
        match outcome with
        | .acquired dir => .ok (s.goto self (.closing dir))
        | _ => .ok (s.goto self .done)
    | _ => .ok { s.goto self (.leaving ticket outcome .dequeueing) with gate := none }
  | .dequeueing =>
    .ok { s.goto self (match outcome with
        | .acquired dir => .verifying dir
        | .again => .queueing
        | .thrown => .done) with
      tickets := withoutTicket ticket s.tickets }

/-! ### The writer lock -/

/-- The next call of the attempt inside the gate. -/
def attemptLock (s : State κ π τ) (self : κ) (ticket : τ) (answer : Bool) :
    Attempt κ → Except Unit (State κ π τ)
  | .making =>
    match s.lock with
    | none =>
      .ok { s.goto self (.attempting ticket (.naming ⟨self, s.next⟩)) with
        lock := some ⟨self, s.next⟩
        next := s.next + 1 }
    | some _ => .ok (s.goto self (.attempting ticket .observing))
  | .naming dir =>
    match s.lock with
    | none => .ok (s.goto self (.attempting ticket (.spoiling dir)))
    | some opened =>
      match s.file opened with
      | none =>
        .ok ((s.setFile opened (some ⟨self, false⟩)).goto self (.attempting ticket (.filling dir opened)))
      -- A restored lock replaced the directory: its owner stays.
      | some _ => .ok (s.goto self (.leaving ticket .again .reading))
  | .filling dir opened =>
    if answer then
      .ok ((s.setFile opened (mark self (s.file opened))).goto self
        (.leaving ticket (.acquired dir) .reading))
    else .ok (s.goto self (.attempting ticket (.spoiling dir)))
  | .spoiling dir => .ok (s.unlink.goto self (.attempting ticket (.clearing dir)))
  | .clearing dir =>
    if s.lock.bind s.file = none then
      .ok { s.goto self (.leaving ticket .thrown .reading) with lock := none }
    else if answer then .ok (s.goto self (.attempting ticket (.spoiling dir)))
    else .ok (s.goto self (.leaving ticket .thrown .reading))
  | .observing =>
    match s.lock with
    | none => .ok (s.goto self (.leaving ticket .again .reading))
    | some dir =>
      if answer = false then .ok (s.goto self (.leaving ticket .again .reading))
      else if mayBeOld process s dir then
        .ok (s.goto self (.attempting ticket (.judging ⟨dir, s.file dir⟩)))
      else .error ()
  | .judging observed =>
    match readLockOwner s with
    | none => .ok (s.goto self (.attempting ticket (.reclaiming observed)))
    | some owner => .ok (s.goto self (.attempting ticket (.checking observed owner)))
  | .checking observed owner =>
    if s.crashed (process owner) then
      .ok (s.goto self (.attempting ticket (.reclaiming observed)))
    else .ok (s.goto self (.leaving ticket .again .reading))
  | .reclaiming observed =>
    match s.lock with
    | none => .ok (s.goto self (.leaving ticket .again .reading))
    | some stolen =>
      .ok { s.goto self (.attempting ticket (.comparing observed stolen)) with lock := none }
  | .comparing observed stolen =>
    if stolen = observed.dir then .ok (s.goto self (.leaving ticket .again .reading))
    else .ok (s.goto self (.attempting ticket (.restoring stolen)))
  | .restoring stolen =>
    -- A directory may be renamed onto an empty one.
    if s.lock.bind s.file = none then
      .ok { s.goto self (.leaving ticket .again .reading) with lock := some stolen }
    else .ok (s.goto self (.leaving ticket .thrown .reading))

/-- The next call of a writer. -/
def withWriterLock (s : State κ π τ) (self : κ) (answer : Bool) :
    Phase κ τ → Except Unit (State κ π τ)
  | .gating ticket place => withWriterAcquisitionGate process s self ticket answer place
  | .attempting ticket place => attemptLock process s self ticket answer place
  | .leaving ticket outcome place => leaveGate s self ticket outcome answer place
  | .verifying dir =>
    -- A token that is not the writer's own throws, and the `finally` reads it again.
    .ok (s.goto self (if readLockOwner s = some self then .running dir else .closing dir))
  | .running dir => .ok (s.goto self (.closing dir))
  | .closing dir =>
    .ok (s.goto self (if readLockOwner s = some self then .unlinking dir else .done))
  | .unlinking dir => .ok (s.unlink.goto self (.clearing dir))
  | .clearing dir =>
    if s.lock.bind s.file = none then .ok { s.goto self .done with lock := none }
    else if answer then .ok (s.goto self (.unlinking dir))
    else .ok (s.goto self .done)
  | _ => .error ()

/-- One step of one writer, or the crash of a process with all its writers. -/
def step [DecidableEq π] (s : State κ π τ) : Event κ π τ → Except Unit (State κ π τ)
  | .queue writer ticket =>
    if s.crashed (process writer) || s.phase writer ≠ .queueing || ticket ∈ s.drawn then .error ()
    else
      .ok { s.goto writer (.gating ticket .ticketing) with
        tickets := ⟨⟨writer, ticket⟩, false⟩ :: s.tickets
        drawn := ticket :: s.drawn }
  | .step writer answer =>
    if s.crashed (process writer) then .error ()
    else withWriterLock process s writer answer (s.phase writer)
  | .busy writer =>
    if s.crashed (process writer) then .error ()
    else
      match s.phase writer with
      | .queueing => .ok (s.goto writer .done)
      | .gating ticket .listing => .ok (s.goto writer (.leaving ticket .thrown .dequeueing))
      | _ => .error ()
  | .crash dead => .ok { s with crashed := Function.update s.crashed dead true }

end Delegatus.RuntimeImages
