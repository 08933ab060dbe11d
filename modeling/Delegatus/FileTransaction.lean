import Delegatus.OwnedLocks
import Delegatus.Refusals
import Mathlib.Data.List.Sort
import Mathlib.Order.Defs.LinearOrder

/-!
# File transactions

A contender for a file writes a ticket into the queue directory, and each attempt reads the
directory, drops the tickets of dead contenders and, when the first live ticket is its own,
creates `<file>.write-lock` exclusively and writes its owner into it.  A lock that is already
there is removed when its owner is dead, and the attempt ends.  `withFileTransactionSync`,
`withFileTransaction` and `withFileTransactionAsync` make the same calls of the file system; the
asynchronous admission stops its scan at the first live ticket.

Each such call is one step here.  A contender stands for its own ticket's name, so the order of
the contenders is the order of the sorted directory.
-/

namespace Delegatus.FileTransaction

open OwnedLocks Refusals

variable {κ π : Type*}

/-- The file that `ownerIsStale` is asked about: the lock, or a ticket of the scan with the
names that come after it and the first live ticket so far. -/
inductive Target (κ : Type*)
  | lock
  | ticket (candidate : κ) (rest : List κ) (first : Option κ)
deriving DecidableEq

/-- The file system call that a contender makes next. -/
inductive Phase (κ : Type*)
  /-- `enqueue`: the exclusive creation of the ticket. -/
  | entering
  /-- `enqueue`: the ticket's owner is written. -/
  | enqueueing
  /-- `firstLiveTicket`: `readdir`. -/
  | waiting
  /-- `ownerIsStale`: `readFile`. -/
  | reading (target : Target κ)
  /-- `ownerIsStale`: the liveness and the identity of the owner that was read. -/
  | checking (target : Target κ) (seen : OwnedFile κ)
  /-- `ownerIsStale`: `stat` of a file that did not parse, or was not there. -/
  | aging (target : Target κ) (seen : Option (OwnedFile κ))
  /-- `rm` of a stale file. -/
  | removing (target : Target κ) (seen : Option (OwnedFile κ))
  /-- `firstLiveTicket`: `exists` of a candidate that is not stale. -/
  | finding (candidate : κ) (rest : List κ) (first : Option κ)
  /-- `tryAcquire`: the exclusive creation of the lock. -/
  | creating
  /-- `tryAcquire`: the lock's owner is written. -/
  | writing
  /-- `tryAcquire`: `rm` of the lock after a failed write. -/
  | failing
  /-- The operation runs. -/
  | acting
  /-- `release`: the lock's token is read. -/
  | releasing
  /-- `release`: `rm` of the lock. -/
  | unlocking
  /-- `removeIfOwned` of the ticket: its token is read. -/
  | leaving
  /-- `removeIfOwned` of the ticket: `rm`. -/
  | dequeueing
  | done
deriving DecidableEq

structure State (κ π : Type*) where
  lock : Option (OwnedFile κ)
  tickets : List (OwnedFile κ)
  phase : κ → Phase κ
  crashed : π → Bool

def initial : State κ π where
  lock := none
  tickets := []
  phase _ := .entering
  crashed _ := false

inductive Event (κ π : Type*)
  /-- The contender's next call; `answer` is what it learns where the state leaves this open. -/
  | step (contender : κ) (answer : Bool)
  /-- The attempts or the time are used up. -/
  | busy (contender : κ)
  | crash (process : π)

def State.goto [DecidableEq κ] (s : State κ π) (contender : κ) (phase : Phase κ) : State κ π :=
  { s with phase := Function.update s.phase contender phase }

variable [LinearOrder κ]

/-- `readdir(queuePath).sort()`. -/
def sortedNames (s : State κ π) : List κ :=
  (s.tickets.map OwnedFile.owner).insertionSort (· ≤ ·)

def fileAt (s : State κ π) : Target κ → Option (OwnedFile κ)
  | .lock => s.lock
  | .ticket candidate _ _ => s.tickets.find? fun file => file.owner = candidate

def withoutTicket (candidate : κ) (tickets : List (OwnedFile κ)) : List (OwnedFile κ) :=
  tickets.filter fun file => file.owner ≠ candidate

/-- `rmSync(path, { force: true })`. -/
def rmSync (s : State κ π) : Target κ → State κ π
  | .lock => { s with lock := none }
  | .ticket candidate _ _ => { s with tickets := withoutTicket candidate s.tickets }

/-- The scan goes on with the next name, or ends with the first live ticket: the lock is tried
when that is the contender's own. -/
def scan (self : κ) (first : Option κ) : List κ → Phase κ
  | candidate :: rest => .reading (.ticket candidate rest first)
  | [] => if first = some self then .creating else .waiting

/-- After the target was found not stale. -/
def Target.kept : Target κ → Phase κ
  | .lock => .waiting
  | .ticket candidate rest first => .finding candidate rest first

/-- After the stale target was removed. -/
def Target.dropped (self : κ) : Target κ → Phase κ
  | .lock => .waiting
  | .ticket _ rest first => scan self first rest

variable (process : κ → π) (async : κ → Bool)

/-- The file may be older than the bound: no live contender is between creating and filling it. -/
def mayBeOld (s : State κ π) (file : OwnedFile κ) : Target κ → Bool
  | .lock => file.written || s.crashed (process file.owner)
  | .ticket .. => file.written || s.crashed (process file.owner) || s.phase file.owner ≠ .enqueueing

/-- The next call of a contender. -/
def advance (s : State κ π) (self : κ) (answer : Bool) : Phase κ → Except Unit (State κ π)
  | .entering =>
    .ok { s.goto self .enqueueing with tickets := ⟨self, false⟩ :: s.tickets }
  | .enqueueing =>
    if answer then
      .ok { s.goto self .waiting with
        tickets := s.tickets.map fun file => if file.owner = self then ⟨self, true⟩ else file }
    -- The synchronous `enqueue` throws and leaves the ticket; the asynchronous one removes it.
    else .ok (s.goto self (if async self then .dequeueing else .done))
  | .waiting => .ok (s.goto self (scan self none (sortedNames s)))
  | .reading target =>
    match fileAt s target with
    | some ⟨owner, true⟩ => .ok (s.goto self (.checking target ⟨owner, true⟩))
    | seen => .ok (s.goto self (.aging target seen))
  | .checking target seen =>
    .ok (s.goto self (if s.crashed (process seen.owner) then .removing target (some seen) else target.kept))
  | .aging target seen =>
    match fileAt s target with
    | none => .ok (s.goto self target.kept)
    | some file =>
      if answer = false then .ok (s.goto self target.kept)
      else if mayBeOld process s file target then .ok (s.goto self (.removing target seen))
      else .error ()
  | .removing target _ => .ok ((rmSync s target).goto self (target.dropped self))
  | .finding candidate rest first =>
    if s.tickets.any (fun file => file.owner = candidate) then
      .ok (s.goto self
        (if async self then scan self (some candidate) [] else scan self (first.or (some candidate)) rest))
    else .ok (s.goto self (scan self first rest))
  | .creating =>
    match s.lock with
    | none => .ok { s.goto self .writing with lock := some ⟨self, false⟩ }
    | some _ => .ok (s.goto self (.reading .lock))
  | .writing =>
    if answer then .ok { s.goto self .acting with lock := mark self s.lock }
    else .ok (s.goto self .failing)
  | .failing => .ok { s.goto self .leaving with lock := none }
  | .acting => .ok (s.goto self .releasing)
  | .releasing =>
    .ok (s.goto self (if s.lock = some ⟨self, true⟩ then .unlocking else .leaving))
  | .unlocking => .ok { s.goto self .leaving with lock := none }
  | .leaving =>
    .ok (s.goto self (if ⟨self, true⟩ ∈ s.tickets then .dequeueing else .done))
  | .dequeueing => .ok { s.goto self .done with tickets := withoutTicket self s.tickets }
  | .done => .error ()

/-- One step of one contender, or the crash of a process with all its contenders. -/
def step [DecidableEq π] (s : State κ π) : Event κ π → Except Unit (State κ π)
  | .step contender answer =>
    if s.crashed (process contender) then .error ()
    else advance process async s contender answer (s.phase contender)
  | .busy contender =>
    if s.crashed (process contender) then .error ()
    else
      match s.phase contender with
      | .entering => .ok (s.goto contender .done)
      | .waiting => .ok (s.goto contender .leaving)
      | _ => .error ()
  | .crash dead => .ok { s with crashed := Function.update s.crashed dead true }

end Delegatus.FileTransaction
