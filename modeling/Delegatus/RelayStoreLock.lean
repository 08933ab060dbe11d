import Delegatus.OwnedLocks
import Delegatus.Refusals
import Mathlib.Logic.Function.Basic

/-!
# The lock of the relay store

`withFileLock` and `withFileLockAsync` create `<file>.lock` exclusively, write the owner into it,
run the action and remove the lock by its name.  A caller that finds a lock waits; one older than
a second is read, and removed by its name when its owner no longer runs.  Each call of the file
system is one step here, and the callers take their steps in any order.

A stale lock is judged in one step and removed in another.  Two callers that wait behind a
crashed holder can both judge its lock, and the second removal then finds the lock that the
first caller has made since (`stale_relay_lock_breaches`).  A run in which every such removal finds
the lock that was judged, or none, excludes (`lock_excludes`).
-/

namespace Delegatus.RelayStore

open OwnedLocks Refusals

variable {κ π : Type*}

/-! ### The callers and their steps -/

/-- The file system call that a caller makes next. -/
inductive Phase (κ π : Type*)
  /-- `fs.openSync(lock, "wx")`, at the head of the loop. -/
  | opening
  /-- `fs.statSync(lock)` after `EEXIST`. -/
  | measuring
  /-- `fs.readFileSync(lock)`: the lock of the call `measured` is older than a second. -/
  | reading (measured : κ)
  /-- `processIdentity` of the process that the lock names. -/
  | checking (measured : κ) (named : π)
  /-- `fs.rmSync(lock)` of the stale lock. -/
  | removing (measured : κ)
  /-- `fs.writeSync(fd, owner)`. -/
  | writing
  /-- `action()`. -/
  | acting
  /-- The last `fs.rmSync(lock)`. -/
  | closing
  | done

/-- The owner of the lock file is the call that created it; a call creates at most one. -/
structure State (κ π : Type*) where
  lock : Option (OwnedFile κ)
  phase : κ → Phase κ π
  crashed : π → Bool

/-- No lock, and no caller has begun. -/
def initial : State κ π where
  lock := none
  phase _ := .opening
  crashed _ := false

inductive Call
  | create
  /-- `old`: the lock's age is over a second. -/
  | stat (old : Bool)
  | read
  | check
  | removeStale
  | write (ok : Bool)
  | finish
  | remove
  /-- The deadline has passed. -/
  | busy

inductive Event (κ π : Type*)
  | call (caller : κ) (call : Call)
  | crash (process : π)

def State.goto [DecidableEq κ] (s : State κ π) (caller : κ) (phase : Phase κ π) : State κ π :=
  { s with phase := Function.update s.phase caller phase }

variable (process : κ → π)

/-- One file system call of `withFileLock`.  An unwritten lock is not older than a second while
the process of its owner lives. -/
def withFileLock [DecidableEq κ] (s : State κ π) (caller : κ) : Call → Phase κ π → Except Unit (State κ π)
  | .create, .opening =>
    match s.lock with
    | none => .ok { s.goto caller .writing with lock := some ⟨caller, false⟩ }
    | some _ => .ok (s.goto caller .measuring)
  | .stat old, .measuring =>
    match s.lock with
    | none => .ok (s.goto caller .opening)
    | some file =>
      if old = false then .ok (s.goto caller .opening)
      else if file.written || s.crashed (process file.owner) then
        .ok (s.goto caller (.reading file.owner))
      else .error ()
  | .read, .reading measured =>
    match s.lock with
    | some ⟨owner, true⟩ => .ok (s.goto caller (.checking measured (process owner)))
    -- The lock is gone, or its text does not parse: both are caught, and it is removed.
    | _ => .ok (s.goto caller (.removing measured))
  | .check, .checking measured named =>
    .ok (s.goto caller (if s.crashed named then .removing measured else .opening))
  | .removeStale, .removing _ => .ok { s.goto caller .opening with lock := none }
  | .write true, .writing =>
    .ok { s.goto caller .acting with lock := mark caller s.lock }
  | .write false, .writing => .ok (s.goto caller .closing)
  | .finish, .acting => .ok (s.goto caller .closing)
  | .remove, .closing => .ok { s.goto caller .done with lock := none }
  | .busy, .opening => .ok (s.goto caller .done)
  | _, _ => .error ()

/-- One step of one caller, or the crash of a process with all its callers. -/
def step [DecidableEq κ] [DecidableEq π] (s : State κ π) : Event κ π → Except Unit (State κ π)
  | .call caller call =>
    if s.crashed (process caller) then .error ()
    else withFileLock process s caller call (s.phase caller)
  | .crash dead => .ok { s with crashed := Function.update s.crashed dead true }

/-! ### Exclusion -/

/-- The caller's process runs. -/
def Live (s : State κ π) (caller : κ) : Prop := s.crashed (process caller) = false

/-- At most one live caller is inside its action, and the lock that a live caller is about to
remove at its end is its own. -/
structure Excludes (s : State κ π) : Prop where
  inside : ∀ a b, Live process s a → Live process s b →
    s.phase a = .acting → s.phase b = .acting → a = b
  own : ∀ caller, Live process s caller → s.phase caller = .closing →
    ∀ file, s.lock = some file → file.owner = caller

/-- The removal of a stale lock finds the lock that the caller measured, the lock of a crashed
process, or none. -/
def findsJudged [DecidableEq κ] (s : State κ π) : Event κ π → Bool
  | .call caller .removeStale =>
    match s.phase caller, s.lock with
    | .removing measured, some file => file.owner = measured || s.crashed (process file.owner)
    | _, _ => true
  | _ => true

/-- The caller made a lock and has not removed it. -/
def Phase.Holding : Phase κ π → Prop
  | .writing | .acting | .closing => True
  | _ => False

/-- The caller made its lock. -/
def Phase.Created : Phase κ π → Prop
  | .writing | .acting | .closing | .done => True
  | _ => False

/-- What a caller that waits knows about the lock it judges: the call `measured` has made its
lock, and if that lock still stands it is no lock that a live caller has yet to write. -/
def Knows (v : Custody κ) : Phase κ π → Prop
  | .reading measured =>
    v.made measured ∧ ∀ file, v.here = some file → file.owner = measured →
      file.written = true ∨ v.dead measured
  | .checking measured named =>
    v.made measured ∧ ∀ file, v.here = some file → file.owner = measured →
      named = process measured ∨ v.dead measured
  | .removing measured =>
    v.made measured ∧ ∀ file, v.here = some file → file.owner = measured → v.dead measured
  | _ => True

/-- What a caller knows stays true. -/
theorem Knows.after {v w : Custody κ} {phase : Phase κ π} (h : After v w)
    (hknows : Knows process v phase) : Knows process w phase := by
  cases phase with
  | reading measured =>
    refine ⟨h.made _ hknows.1, ?_⟩
    intro file hfile howner
    obtain ⟨earlier, hearlier, hsame, hwritten⟩ := h.here file hfile (howner ▸ hknows.1)
    exact (hknows.2 earlier hearlier (hsame.trans howner)).imp hwritten (h.dead _)
  | checking measured named =>
    refine ⟨h.made _ hknows.1, ?_⟩
    intro file hfile howner
    obtain ⟨earlier, hearlier, hsame, -⟩ := h.here file hfile (howner ▸ hknows.1)
    exact (hknows.2 earlier hearlier (hsame.trans howner)).imp id (h.dead _)
  | removing measured =>
    refine ⟨h.made _ hknows.1, ?_⟩
    intro file hfile howner
    obtain ⟨earlier, hearlier, hsame, -⟩ := h.here file hfile (howner ▸ hknows.1)
    exact h.dead _ (hknows.2 earlier hearlier (hsame.trans howner))
  | _ => trivial

def protocol : Protocol κ (Phase κ π) where
  Holding := Phase.Holding
  Created := Phase.Created
  Knows := Knows process
  knows_after := Knows.after process

def State.makers (s : State κ π) : Makers κ (Phase κ π) where
  here := s.lock
  phase := s.phase
  dead caller := s.crashed (process caller) = true

def Sound (s : State κ π) : Prop := (protocol process).Sound (s.makers process)

variable {process} [DecidableEq κ] {s : State κ π} {caller : κ}

omit [DecidableEq κ] in
theorem holds_of (hlive : Live process s caller) (hphase : (s.phase caller).Holding) :
    ((protocol process).custody (s.makers process)).holds caller := by
  refine ⟨?_, hphase⟩
  change ¬s.crashed (process caller) = true
  rw [hlive]
  exact Bool.false_ne_true

theorem Sound.goto (h : Sound process s) {next : Phase κ π}
    (hcreated : (s.phase caller).Created → next.Created)
    (hholding : next.Holding → (s.phase caller).Holding)
    (hknows : Knows process ((protocol process).custody (s.makers process)) next) :
    Sound process (s.goto caller next) :=
  Protocol.Sound.wait h hcreated hholding hknows

theorem Sound.unlock (h : Sound process s) {next : Phase κ π}
    (hcreated : (s.phase caller).Created → next.Created) (hnext : ¬next.Holding)
    (hknows : Knows process ((protocol process).custody (s.makers process)) next)
    (hstale : ∀ file, s.lock = some file → file.owner = caller ∨ s.crashed (process file.owner) = true) :
    Sound process { s.goto caller next with lock := none } :=
  Protocol.Sound.unlock h hcreated hnext hknows hstale

/-- A live caller keeps the state sound with every call, when a stale lock that it removes is
the one that it judged. -/
theorem Sound.call (h : Sound process s) (hlive : Live process s caller) {call : Call}
    {t : State κ π} (hfinds : findsJudged process s (.call caller call) = true)
    (hstep : withFileLock process s caller call (s.phase caller) = .ok t) : Sound process t := by
  have hknows : Knows process _ (s.phase caller) := h.knows caller
  unfold withFileLock at hstep
  split at hstep
  case h_1 hphase =>
    rw [hphase] at hknows
    split at hstep
    case h_1 hlock =>
      obtain rfl := Except.ok.inj hstep
      exact Protocol.Sound.create h hlock (by simp [hphase, protocol, State.makers, Phase.Created]) trivial trivial
    case h_2 =>
      obtain rfl := Except.ok.inj hstep
      exact h.goto (by simp [hphase, Phase.Created]) False.elim trivial
  case h_2 old hphase =>
    have hwait : ∀ next : Phase κ π, ¬next.Holding →
        Knows process ((protocol process).custody (s.makers process)) next →
        Sound process (s.goto caller next) := fun next hnext =>
      h.goto (by simp [hphase, Phase.Created]) fun hholds => absurd hholds hnext
    split at hstep
    case h_1 =>
      obtain rfl := Except.ok.inj hstep
      exact hwait .opening id trivial
    case h_2 file hlock =>
      split at hstep
      · obtain rfl := Except.ok.inj hstep
        exact hwait .opening id trivial
      · split at hstep
        · next hread =>
          obtain rfl := Except.ok.inj hstep
          refine hwait (.reading file.owner) id ⟨h.guarded.made file hlock, ?_⟩
          intro other hother _
          obtain rfl := Option.some.inj (hlock.symm.trans hother)
          exact Bool.or_eq_true_iff.mp hread
        · contradiction
  case h_3 measured hphase =>
    rw [hphase] at hknows
    split at hstep
    case h_1 owner hlock =>
      obtain rfl := Except.ok.inj hstep
      refine h.goto (by simp [hphase, Phase.Created]) False.elim ⟨hknows.1, ?_⟩
      intro other hother howner
      obtain rfl := Option.some.inj (hlock.symm.trans hother)
      exact Or.inl (congrArg process howner)
    case h_2 hunread =>
      obtain rfl := Except.ok.inj hstep
      refine h.goto (by simp [hphase, Phase.Created]) False.elim ⟨hknows.1, ?_⟩
      intro other hother howner
      refine (hknows.2 other hother howner).resolve_left fun hwritten => ?_
      exact hunread other.owner (hwritten ▸ hother)
  case h_4 measured named hphase =>
    rw [hphase] at hknows
    obtain rfl := Except.ok.inj hstep
    split
    · next hdead =>
      refine h.goto (by simp [hphase, Phase.Created]) False.elim ⟨hknows.1, ?_⟩
      intro other hother howner
      rcases hknows.2 other hother howner with heq | hcrashed
      · rw [heq] at hdead
        exact hdead
      · exact hcrashed
    · exact h.goto (by simp [hphase, Phase.Created]) False.elim trivial
  case h_5 measured hphase =>
    rw [hphase] at hknows
    obtain rfl := Except.ok.inj hstep
    refine h.unlock (by simp [hphase, Phase.Created]) id trivial fun file hfile => ?_
    right
    rw [findsJudged, hphase, hfile] at hfinds
    rcases Bool.or_eq_true_iff.mp hfinds with howner | hdead
    · have howner := of_decide_eq_true howner
      exact howner ▸ hknows.2 file hfile howner
    · exact hdead
  case h_6 hphase =>
    obtain rfl := Except.ok.inj hstep
    exact Protocol.Sound.write h (fun _ => trivial) (fun _ => by simp [hphase, protocol, State.makers, Phase.Holding]) trivial
  case h_7 hphase =>
    obtain rfl := Except.ok.inj hstep
    exact h.goto (fun _ => trivial) (by simp [hphase, Phase.Holding]) trivial
  case h_8 hphase =>
    obtain rfl := Except.ok.inj hstep
    exact h.goto (fun _ => trivial) (by simp [hphase, Phase.Holding]) trivial
  case h_9 hphase =>
    obtain rfl := Except.ok.inj hstep
    refine h.unlock (fun _ => trivial) id trivial fun file hfile => ?_
    exact Or.inl (h.guarded.own (holds_of hlive (by simp [hphase, Phase.Holding])) hfile)
  case h_10 hphase =>
    obtain rfl := Except.ok.inj hstep
    exact h.goto (fun _ => trivial) False.elim trivial
  case h_11 => contradiction

omit [DecidableEq κ] in
theorem Sound.crash [DecidableEq π] (h : Sound process s) (dead : π) :
    Sound process { s with crashed := Function.update s.crashed dead true } := by
  refine Protocol.Sound.die h fun caller hdead => ?_
  change Function.update s.crashed dead true (process caller) = true
  by_cases heq : process caller = dead
  · rw [heq, Function.update_self]
  · rw [Function.update_of_ne heq]
    exact hdead

omit [DecidableEq κ] in
theorem sound_initial : Sound process (initial : State κ π) :=
  Protocol.sound_of_idle rfl (fun _ => id) fun _ => trivial

omit [DecidableEq κ] in
theorem Sound.excludes (h : Sound process s) : Excludes process s where
  inside := by
    intro a b ha hb hacting hbacting
    exact h.guarded.unique (holds_of ha (by simp [hacting, Phase.Holding]))
      (holds_of hb (by simp [hbacting, Phase.Holding]))
  own := by
    intro caller hlive hphase file hfile
    exact h.guarded.own (holds_of hlive (by simp [hphase, Phase.Holding])) hfile

/-- **Step lemma.** -/
theorem Sound.step [DecidableEq π] {event : Event κ π} {t : State κ π} (h : Sound process s)
    (hfinds : findsJudged process s event = true) (hstep : step process s event = .ok t) :
    Sound process t := by
  cases event with
  | call caller call =>
    rw [RelayStore.step] at hstep
    split at hstep
    · contradiction
    · next hlive => exact h.call (eq_false_of_ne_true hlive) hfinds hstep
  | crash dead =>
    obtain rfl := Except.ok.inj hstep
    exact h.crash dead

/-- **In a run whose removals of stale locks find the lock that was judged, or none, at most one
live caller is inside its action and the last removal of a caller removes its own lock.** -/
theorem lock_excludes [DecidableEq π] (process : κ → π) {events : List (Event κ π)} {state : State κ π}
    (hrun : run (step process) initial events = .ok state)
    (hfinds : Accepted (step process) (fun s event => findsJudged process s event) initial events) :
    Excludes process state :=
  (run_invariant_of_accepted (fun _ _ _ h hevent hstep => Sound.step h hevent hstep)
    sound_initial hfinds hrun).excludes

/-- A process crashes while it holds the lock, and the next caller recovers it. -/
def recovery : List (Event ℕ ℕ) :=
  [.call 0 .create, .call 0 (.write true), .crash 0, .call 1 .create, .call 1 (.stat true), .call 1 .read,
    .call 1 .check, .call 1 .removeStale, .call 1 .create, .call 1 (.write true), .call 1 .finish]

theorem lock_excludes_recovery :
    ∃ state, run (step id) initial recovery = .ok state ∧ state.phase 1 = .closing ∧
      Excludes id state :=
  ⟨_, rfl, rfl, @lock_excludes ℕ ℕ _ _ id recovery _ rfl (by decide)⟩

/-- Two callers wait behind the crashed one, and both judge its lock.  The second removes the
lock that the first has made. -/
def waiters : List (Event ℕ ℕ) :=
  [.call 0 .create, .call 0 (.write true), .crash 0,
    .call 1 .create, .call 1 (.stat true), .call 1 .read, .call 1 .check,
    .call 2 .create, .call 2 (.stat true), .call 2 .read, .call 2 .check,
    .call 1 .removeStale, .call 1 .create, .call 1 (.write true),
    .call 2 .removeStale, .call 2 .create, .call 2 (.write true)]

/-- **The removal of a stale lock breaches the exclusion.** -/
theorem stale_relay_lock_breaches :
    ¬∀ (events : List (Event ℕ ℕ)) (state : State ℕ ℕ),
      run (step id) initial events = .ok state → Excludes id state := by
  intro hall
  have hexcludes := hall waiters _ rfl
  have heq : 1 = 2 := hexcludes.inside 1 2 rfl rfl rfl rfl
  contradiction

end Delegatus.RelayStore
