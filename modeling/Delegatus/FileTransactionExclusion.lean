import Delegatus.FileTransaction

/-!
# Exclusion of file transactions

The tickets decide who tries the lock, and the lock alone excludes.  A stale lock is judged in
some calls and removed by its name in another, so the removal may find a lock that was made in
between: a contender whose ticket sorts first can recover the lock of a crashed one while another
has judged it, and a third whose ticket sorts before both enters beside it
(`stale_write_lock_breaches`).  A run in which every such removal finds the lock as it was read, or
none, excludes (`transactions_exclude`).
-/

namespace Delegatus.FileTransaction

open OwnedLocks Refusals

variable {κ π : Type*} (process : κ → π)

/-- The contender's process runs. -/
def Live (s : State κ π) (contender : κ) : Prop := s.crashed (process contender) = false

/-- Between a successful acquisition and its release. -/
def Phase.Inside : Phase κ → Prop
  | .acting | .releasing | .unlocking => True
  | _ => False

/-- At most one live contender is between its acquisition and its release. -/
def Excludes (s : State κ π) : Prop :=
  ∀ a b, Live process s a → Live process s b → (s.phase a).Inside → (s.phase b).Inside → a = b

/-- The removal of a stale lock finds the lock as it was read, the lock of a dead contender, or
none. -/
def findsJudged [DecidableEq κ] (s : State κ π) : Event κ π → Bool
  | .step contender _ =>
    match s.phase contender, s.lock with
    | .removing .lock seen, some file => seen = some file || s.crashed (process file.owner)
    | _, _ => true
  | _ => true

/-- The contender made a lock and has not removed it. -/
def Phase.Holding : Phase κ → Prop
  | .writing | .failing | .acting | .releasing | .unlocking => True
  | _ => False

/-- The contender made its lock. -/
def Phase.Created : Phase κ → Prop
  | .writing | .failing | .acting | .releasing | .unlocking | .leaving | .dequeueing | .done => True
  | _ => False

/-- What a contender knows about the lock that it judges. -/
def Knows (v : Custody κ) : Phase κ → Prop
  | .checking .lock seen => v.made seen.owner ∧ seen.written = true
  | .aging .lock (some seen) => v.made seen.owner ∧ seen.written = false
  | .removing .lock (some seen) =>
    v.made seen.owner ∧ (seen.written = true ∨ v.here = some seen → v.dead seen.owner)
  | _ => True

theorem Knows.after {v w : Custody κ} {phase : Phase κ} (h : After v w) (hknows : Knows v phase) :
    Knows w phase := by
  unfold Knows at hknows ⊢
  split
  · exact ⟨h.made _ hknows.1, hknows.2⟩
  · exact ⟨h.made _ hknows.1, hknows.2⟩
  · next seen =>
    refine ⟨h.made _ hknows.1, fun hseen => h.dead _ (hknows.2 ?_)⟩
    rcases hseen with hwritten | hhere
    · exact Or.inl hwritten
    · obtain ⟨earlier, hearlier, hsame, hwritten⟩ := h.here seen hhere hknows.1
      cases hw : seen.written with
      | true => exact Or.inl rfl
      | false =>
        rw [hw] at hwritten
        have hunwritten : earlier.written = false := by simpa using hwritten
        have heq : earlier = seen := by
          cases earlier
          cases seen
          simp_all
        exact Or.inr (heq ▸ hearlier)
  · trivial

def protocol : Protocol κ (Phase κ) where
  Holding := Phase.Holding
  Created := Phase.Created
  Knows := Knows
  knows_after := Knows.after

def State.makers (s : State κ π) : Makers κ (Phase κ) where
  here := s.lock
  phase := s.phase
  dead contender := s.crashed (process contender) = true

def Sound (s : State κ π) : Prop := protocol.Sound (s.makers process)

variable {process} {s : State κ π} {contender : κ}

theorem holds_of (hlive : Live process s contender) (hphase : (s.phase contender).Holding) :
    (protocol.custody (s.makers process)).holds contender := by
  refine ⟨?_, hphase⟩
  change ¬s.crashed (process contender) = true
  rw [hlive]
  exact Bool.false_ne_true

theorem Phase.Inside.holding {phase : Phase κ} (h : phase.Inside) : phase.Holding := by
  cases phase <;> first | exact h | exact trivial

theorem Sound.excludes (h : Sound process s) : Excludes process s := by
  intro a b ha hb hinside hbinside
  exact h.guarded.unique (holds_of ha hinside.holding) (holds_of hb hbinside.holding)

theorem sound_initial : Sound process (initial : State κ π) :=
  Protocol.sound_of_idle rfl (fun _ => id) fun _ => trivial

theorem Sound.crash [DecidableEq π] (h : Sound process s) (dead : π) :
    Sound process { s with crashed := Function.update s.crashed dead true } := by
  refine Protocol.Sound.die h fun contender hdead => ?_
  change Function.update s.crashed dead true (process contender) = true
  by_cases heq : process contender = dead
  · rw [heq, Function.update_self]
  · rw [Function.update_of_ne heq]
    exact hdead

/-! ### The steps of a contender -/

/-- A phase that a contender reaches without the lock, and that asks for no knowledge. -/
structure Waits (phase : Phase κ) : Prop where
  holding : ¬phase.Holding
  knows : ∀ v, Knows v phase

theorem waits_kept (target : Target κ) : Waits target.kept := by
  cases target <;> exact ⟨id, fun _ => trivial⟩

variable [LinearOrder κ]

theorem waits_scan (self : κ) (first : Option κ) (rest : List κ) : Waits (scan self first rest) := by
  cases rest with
  | cons candidate rest => exact ⟨id, fun _ => trivial⟩
  | nil =>
    change Waits (if first = some self then Phase.creating else Phase.waiting)
    split
    · exact ⟨id, fun _ => trivial⟩
    · exact ⟨id, fun _ => trivial⟩

theorem waits_dropped (self : κ) (target : Target κ) : Waits (target.dropped self) := by
  cases target with
  | lock => exact ⟨id, fun _ => trivial⟩
  | ticket candidate rest first => exact waits_scan self first rest

/-- A turn that leaves the lock alone. -/
theorem Sound.goto (h : Sound process s) {next : Phase κ} {tickets : List (OwnedFile κ)}
    (hcreated : (s.phase contender).Created → next.Created)
    (hholding : next.Holding → (s.phase contender).Holding)
    (hknows : Knows (protocol.custody (s.makers process)) next) :
    Sound process { s.goto contender next with tickets := tickets } :=
  Protocol.Sound.wait h hcreated hholding hknows

/-- A turn of a contender that has not made its lock and leaves the name alone. -/
theorem Sound.wait (h : Sound process s) {next : Phase κ} (hphase : ¬(s.phase contender).Created)
    (hnext : ¬next.Holding) (hknows : Knows (protocol.custody (s.makers process)) next) :
    Sound process (s.goto contender next) :=
  h.goto (fun hcreated => absurd hcreated hphase) (fun hholds => absurd hholds hnext) hknows

theorem Sound.unlock (h : Sound process s) {next : Phase κ}
    (hcreated : (s.phase contender).Created → next.Created) (hnext : ¬next.Holding)
    (hknows : Knows (protocol.custody (s.makers process)) next)
    (hstale : ∀ file, s.lock = some file →
      file.owner = contender ∨ s.crashed (process file.owner) = true) :
    Sound process { s.goto contender next with lock := none } :=
  Protocol.Sound.unlock h hcreated hnext hknows hstale

/-- A contender that holds the lock removes its own. -/
theorem Sound.release (h : Sound process s) (hlive : Live process s contender)
    (hphase : (s.phase contender).Holding) :
    Sound process { s.goto contender .leaving with lock := none } :=
  h.unlock (fun _ => trivial) id trivial fun _ hfile =>
    Or.inl (h.guarded.own (holds_of hlive hphase) hfile)

/-- What the first read of a stale judgment tells. -/
theorem Sound.read (h : Sound process s) {target : Target κ} (hphase : s.phase contender = .reading target)
    {async : κ → Bool} {answer : Bool} {t : State κ π}
    (hstep : advance process async s contender answer (.reading target) = .ok t) : Sound process t := by
  have hnew : ¬(s.phase contender).Created := by
    rw [hphase]
    exact id
  unfold advance at hstep
  dsimp only at hstep
  split at hstep
  case h_1 owner hfile =>
    obtain rfl := Except.ok.inj hstep
    refine h.wait hnew id ?_
    cases target with
    | lock => exact ⟨h.guarded.made _ hfile, rfl⟩
    | ticket => trivial
  case h_2 hunread =>
    obtain rfl := Except.ok.inj hstep
    refine h.wait hnew id ?_
    cases target with
    | lock =>
      cases hseen : fileAt s .lock with
      | none => trivial
      | some seen =>
        refine ⟨h.guarded.made _ hseen, ?_⟩
        cases seen with
        | mk owner written =>
          cases written with
          | true => exact absurd hseen (hunread owner)
          | false => exact rfl
    | ticket => trivial

theorem Sound.check (h : Sound process s) {target : Target κ} {seen : OwnedFile κ}
    (hphase : s.phase contender = .checking target seen) :
    Sound process (s.goto contender
      (if s.crashed (process seen.owner) then .removing target (some seen) else target.kept)) := by
  have hnew : ¬(s.phase contender).Created := by
    rw [hphase]
    exact id
  have hknows : Knows _ (s.phase contender) := h.knows contender
  rw [hphase] at hknows
  split
  · next hdead =>
    refine h.wait hnew id ?_
    cases target with
    | lock => exact ⟨hknows.1, fun _ => hdead⟩
    | ticket => trivial
  · exact h.wait hnew (waits_kept target).holding ((waits_kept target).knows _)

/-- A lock that is old and was not yet written when it was read is a dead contender's. -/
theorem Sound.age (h : Sound process s) {target : Target κ} {seen : Option (OwnedFile κ)}
    (hphase : s.phase contender = .aging target seen) {file : OwnedFile κ}
    (hfile : fileAt s target = some file) (hold : mayBeOld process s file target = true) :
    Sound process (s.goto contender (.removing target seen)) := by
  have hnew : ¬(s.phase contender).Created := by
    rw [hphase]
    exact id
  have hknows : Knows _ (s.phase contender) := h.knows contender
  rw [hphase] at hknows
  refine h.wait hnew id ?_
  cases target with
  | ticket => trivial
  | lock =>
    cases seen with
    | none => trivial
    | some seen =>
      obtain ⟨hmade, hunwritten⟩ := hknows
      refine ⟨hmade, fun hseen => ?_⟩
      have hhere : s.lock = some seen := hseen.resolve_left (by simp [hunwritten])
      obtain rfl := Option.some.inj (hhere.symm.trans hfile)
      have hor := Bool.or_eq_true_iff.mp hold
      exact hor.resolve_left (by simp [hunwritten])

/-- The removal of a stale file. -/
theorem Sound.removeStale (h : Sound process s) {target : Target κ} {seen : Option (OwnedFile κ)}
    (hphase : s.phase contender = .removing target seen) {answer : Bool}
    (hfinds : findsJudged process s (.step contender answer) = true) :
    Sound process ((rmSync s target).goto contender (target.dropped contender)) := by
  have hnew : ¬(s.phase contender).Created := by
    rw [hphase]
    exact id
  have hknows : Knows _ (s.phase contender) := h.knows contender
  rw [hphase] at hknows
  have hwaits := waits_dropped contender target
  cases target with
  | ticket candidate rest first =>
    exact h.goto (fun hcreated => absurd hcreated hnew) (fun hholds => absurd hholds hwaits.holding)
      (hwaits.knows _)
  | lock =>
    refine h.unlock (fun hcreated => absurd hcreated hnew) id trivial fun file hfile => Or.inr ?_
    rw [findsJudged, hphase, hfile] at hfinds
    rcases Bool.or_eq_true_iff.mp hfinds with hsame | hdead
    · obtain rfl := of_decide_eq_true hsame
      exact hknows.2 (Or.inr hfile)
    · exact hdead

/-- The exclusive creation of the lock. -/
theorem Sound.create (h : Sound process s) (hphase : s.phase contender = .creating)
    (hlock : s.lock = none) :
    Sound process { s.goto contender .writing with lock := some ⟨contender, false⟩ } := by
  have hnew : ¬(s.phase contender).Created := by
    rw [hphase]
    exact id
  exact Protocol.Sound.create h hlock hnew trivial trivial

theorem Sound.write (h : Sound process s) (hphase : s.phase contender = .writing) :
    Sound process { s.goto contender .acting with lock := mark contender s.lock } := by
  have hholding : (s.phase contender).Holding := by
    rw [hphase]
    trivial
  exact Protocol.Sound.write h (fun _ => trivial) (fun _ => hholding) trivial

/-- A live contender keeps the state sound with every call, when a stale lock that it removes
is the one that it read. -/
theorem Sound.advance (h : Sound process s) (hlive : Live process s contender) {async : κ → Bool}
    {answer : Bool} {t : State κ π}
    (hfinds : findsJudged process s (.step contender answer) = true)
    (hstep : advance process async s contender answer (s.phase contender) = .ok t) :
    Sound process t := by
  cases hphase : s.phase contender with
  | reading target =>
    rw [hphase] at hstep
    exact h.read hphase hstep
  | aging target seen =>
    have hnew : ¬(s.phase contender).Created := by
      rw [hphase]
      exact id
    have hkept := h.wait hnew (waits_kept target).holding ((waits_kept target).knows _)
    rw [hphase, FileTransaction.advance] at hstep
    split at hstep
    · obtain rfl := Except.ok.inj hstep
      exact hkept
    · next file hfile =>
      split at hstep
      · obtain rfl := Except.ok.inj hstep
        exact hkept
      · split at hstep
        · next hold =>
          obtain rfl := Except.ok.inj hstep
          exact h.age hphase hfile hold
        · contradiction
  | creating =>
    rw [hphase, FileTransaction.advance] at hstep
    split at hstep
    · next hlock =>
      obtain rfl := Except.ok.inj hstep
      exact h.create hphase hlock
    · obtain rfl := Except.ok.inj hstep
      exact h.wait (by simp [hphase, Phase.Created]) id trivial
  | finding candidate rest first =>
    have hscan : ∀ first rest, Sound process (s.goto contender (scan contender first rest)) :=
      fun first rest => h.wait (by simp [hphase, Phase.Created]) (waits_scan contender first rest).holding
        ((waits_scan contender first rest).knows _)
    rw [hphase, FileTransaction.advance] at hstep
    split at hstep
    · obtain rfl := Except.ok.inj hstep
      split
      · exact hscan _ _
      · exact hscan _ _
    · obtain rfl := Except.ok.inj hstep
      exact hscan _ _
  | enqueueing =>
    rw [hphase, FileTransaction.advance] at hstep
    split at hstep
    · obtain rfl := Except.ok.inj hstep
      exact h.goto (by simp [hphase, Phase.Created]) False.elim trivial
    · obtain rfl := Except.ok.inj hstep
      split
      · exact h.wait (by simp [hphase, Phase.Created]) id trivial
      · exact h.wait (by simp [hphase, Phase.Created]) id trivial
  | writing =>
    rw [hphase, FileTransaction.advance] at hstep
    split at hstep
    · obtain rfl := Except.ok.inj hstep
      exact h.write hphase
    · obtain rfl := Except.ok.inj hstep
      exact h.goto (fun _ => trivial) (by simp [hphase, Phase.Holding]) trivial
  | releasing =>
    rw [hphase] at hstep
    obtain rfl := Except.ok.inj hstep
    split
    · exact h.goto (fun _ => trivial) (by simp [hphase, Phase.Holding]) trivial
    · exact h.goto (fun _ => trivial) False.elim trivial
  | leaving =>
    rw [hphase] at hstep
    obtain rfl := Except.ok.inj hstep
    split
    · exact h.goto (fun _ => trivial) False.elim trivial
    · exact h.goto (fun _ => trivial) False.elim trivial
  | entering =>
    rw [hphase] at hstep
    obtain rfl := Except.ok.inj hstep
    exact h.goto (by simp [hphase, Phase.Created]) False.elim trivial
  | waiting =>
    rw [hphase] at hstep
    obtain rfl := Except.ok.inj hstep
    have hwaits := waits_scan contender none (sortedNames s)
    exact h.wait (by simp [hphase, Phase.Created]) hwaits.holding (hwaits.knows _)
  | checking target seen =>
    rw [hphase] at hstep
    obtain rfl := Except.ok.inj hstep
    exact h.check hphase
  | removing target seen =>
    rw [hphase] at hstep
    obtain rfl := Except.ok.inj hstep
    exact h.removeStale hphase hfinds
  | failing =>
    rw [hphase] at hstep
    obtain rfl := Except.ok.inj hstep
    exact h.release hlive (by simp [hphase, Phase.Holding])
  | acting =>
    rw [hphase] at hstep
    obtain rfl := Except.ok.inj hstep
    exact h.goto (fun _ => trivial) (by simp [hphase, Phase.Holding]) trivial
  | unlocking =>
    rw [hphase] at hstep
    obtain rfl := Except.ok.inj hstep
    exact h.release hlive (by simp [hphase, Phase.Holding])
  | dequeueing =>
    rw [hphase] at hstep
    obtain rfl := Except.ok.inj hstep
    exact h.goto (fun _ => trivial) False.elim trivial
  | done =>
    rw [hphase] at hstep
    contradiction

/-- **Step lemma.** -/
theorem Sound.step [DecidableEq π] (h : Sound process s) {async : κ → Bool} {event : Event κ π}
    {t : State κ π} (hfinds : findsJudged process s event = true)
    (hstep : step process async s event = .ok t) : Sound process t := by
  cases event with
  | step contender answer =>
    rw [FileTransaction.step] at hstep
    split at hstep
    · contradiction
    · next hlive => exact h.advance (eq_false_of_ne_true hlive) hfinds hstep
  | busy contender =>
    rw [FileTransaction.step] at hstep
    split at hstep
    · contradiction
    · split at hstep
      case h_1 hphase =>
        obtain rfl := Except.ok.inj hstep
        exact h.goto (fun _ => trivial) False.elim trivial
      case h_2 hphase =>
        obtain rfl := Except.ok.inj hstep
        exact h.goto (fun _ => trivial) False.elim trivial
      case h_3 => contradiction
  | crash dead =>
    obtain rfl := Except.ok.inj hstep
    exact h.crash dead

/-- **In a run whose removals of stale locks find the lock as it was read, or none, at most one
live contender is between its acquisition and its release.** -/
theorem transactions_exclude [DecidableEq π] (process : κ → π) (async : κ → Bool)
    {events : List (Event κ π)} {state : State κ π}
    (hrun : run (step process async) initial events = .ok state)
    (hfinds : Accepted (step process async) (fun s event => findsJudged process s event) initial events) :
    Excludes process state :=
  (run_invariant_of_accepted (fun _ _ _ h hevent hstep => Sound.step h hevent hstep)
    sound_initial hfinds hrun).excludes

/-- The contender's next calls of the file system, each of which succeeds. -/
def calls (contender n : ℕ) : List (Event ℕ ℕ) := List.replicate n (.step contender true)

/-- A contender crashes while it holds the lock, and the next one recovers it. -/
def recovery : List (Event ℕ ℕ) := calls 3 8 ++ .crash 3 :: calls 2 19

theorem transactions_exclude_recovery :
    ∃ state, run (step id fun _ => false) initial recovery = .ok state ∧ state.phase 2 = .acting ∧
      Excludes id state :=
  ⟨_, rfl, rfl, @transactions_exclude ℕ ℕ _ _ id (fun _ => false) recovery _ rfl (by decide)⟩

/-- Contender 2 judges the lock of the crashed contender 3.  Contender 1, whose ticket sorts
first, recovers it and enters; then contender 2 removes the lock of contender 1, and contender 0,
whose ticket sorts before both, enters too. -/
def recoveries : List (Event ℕ ℕ) :=
  calls 3 8 ++ .crash 3 :: (calls 2 12 ++ calls 1 22 ++ calls 2 1 ++ calls 0 14)

/-- **The removal of a stale lock breaches the exclusion.** -/
theorem stale_write_lock_breaches :
    ¬∀ (events : List (Event ℕ ℕ)) (state : State ℕ ℕ),
      run (step id fun _ => false) initial events = .ok state → Excludes id state := by
  intro hall
  have hexcludes := hall recoveries _ rfl
  have heq : 0 = 1 := hexcludes 0 1 rfl rfl trivial trivial
  contradiction

end Delegatus.FileTransaction
