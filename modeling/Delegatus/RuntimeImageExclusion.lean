import Delegatus.RuntimeImageLock

/-!
# Exclusion of runtime image writers

The gate does not exclude: a writer whose ticket sorts first finds a gate whose owner file is
not yet written, and removes it after the owner has entered.  Two writers inside the gate may
judge one stale lock, and the second then renames away the lock that the first has made since.
While it compares the inodes the name is free, so a third writer makes another lock and enters
(`reclaimed_lock_breaches`).  A run in which every reclamation finds the lock that it observed,
with the owner file that it had, or none, excludes (`writers_exclude`).
-/

namespace Delegatus.RuntimeImages

open OwnedLocks Refusals

variable {κ π τ : Type*} (process : κ → π)

/-- The writer's process runs. -/
def Live (s : State κ π τ) (writer : κ) : Prop := s.crashed (process writer) = false

/-- Inside the section that `withWriterLock` runs. -/
def Phase.Inside : Phase κ τ → Prop
  | .running _ => True
  | _ => False

/-- At most one live writer is inside its section. -/
def Excludes (s : State κ π τ) : Prop :=
  ∀ a b, Live process s a → Live process s b → (s.phase a).Inside → (s.phase b).Inside → a = b

/-- The reclamation of a stale lock renames the lock that was observed, with the owner file that
it had then, or finds none. -/
def findsObserved [DecidableEq κ] (s : State κ π τ) : Event κ π τ → Bool
  | .step writer _ =>
    match s.phase writer, s.lock with
    | .attempting _ (.reclaiming observed), some dir =>
      dir = observed.dir && s.file dir = observed.file
    | _, _ => true
  | _ => true

/-! ### What a writer knows -/

/-- The writer has the owner file of its own lock still to create or to write. -/
def Phase.Writes : Phase κ τ → Prop
  | .attempting _ (.naming _) | .attempting _ (.filling _ _) => True
  | _ => False

/-- The maker of the directory will not write its owner file any more. -/
def Past (s : State κ π τ) (dir : Dir κ) : Prop :=
  (s.phase dir.maker).Writes → (s.phase dir.maker).dir? ≠ some dir

/-- The file at the lock's name is the directory; its maker holds it while it lives and works
with it. -/
def State.custody (s : State κ π τ) : Custody (Dir κ) where
  here := s.lock.map fun dir => ⟨dir, false⟩
  holds dir := Live process s dir.maker ∧ (s.phase dir.maker).dir? = some dir
  made dir := dir.number < s.next
  dead dir := s.crashed (process dir.maker) = true

/-- What a writer knows about its own lock, and about the lock that it observed. -/
def Knows (s : State κ π τ) : Phase κ τ → Prop
  | .attempting _ (.naming dir) => s.file dir = none
  | .attempting _ (.filling dir opened) => opened = dir ∧ readOwner (s.file dir) = none
  | .attempting _ (.judging observed) =>
    observed.dir.number < s.next ∧
      (readOwner observed.file = none → ¬(s.custody process).holds observed.dir) ∧
      (readOwner observed.file ≠ none → Past s observed.dir)
  | .attempting _ (.checking observed owner) =>
    observed.dir.number < s.next ∧
      (owner = observed.dir.maker ∨ s.lock ≠ some observed.dir ∨
        ¬(s.custody process).holds observed.dir)
  | .attempting _ (.reclaiming observed) =>
    observed.dir.number < s.next ∧
      (¬(s.custody process).holds observed.dir ∨ s.lock ≠ some observed.dir ∨
        (readOwner observed.file ≠ none ∧ Past s observed.dir ∧
          readOwner (s.file observed.dir) = none))
  | .attempting _ (.comparing observed stolen) => stolen = observed.dir
  | .attempting _ (.restoring _) => False
  | _ => True

structure Sound (s : State κ π τ) : Prop where
  guarded : Guarded (s.custody process)
  own : ∀ writer dir, (s.phase writer).dir? = some dir → dir.maker = writer
  fresh : ∀ dir : Dir κ, s.next ≤ dir.number → s.file dir = none
  owner : ∀ dir file, s.file dir = some file → file.owner = dir.maker
  knows : ∀ writer, Knows process s (s.phase writer)

/-- `t` comes after `s` by a turn of `writer` or by a crash: no other writer's owner files have
changed, and a file that its maker will not write stays unwritten. -/
structure Later (s t : State κ π τ) (writer : κ) : Prop where
  after : After (s.custody process) (t.custody process)
  file : ∀ dir : Dir κ, dir.maker ≠ writer → t.file dir = s.file dir
  past : ∀ dir : Dir κ, dir.number < s.next → Past s dir → Past t dir
  unread : ∀ dir : Dir κ, dir.number < s.next → Past s dir → readOwner (s.file dir) = none →
    readOwner (t.file dir) = none

variable {process} {s t : State κ π τ} {writer : κ}

theorem Later.lock_ne (h : Later process s t writer) {dir : Dir κ} (hmade : dir.number < s.next)
    (hne : s.lock ≠ some dir) : t.lock ≠ some dir := by
  intro hlock
  have hhere : (t.custody process).here = some ⟨dir, false⟩ := by simp [State.custody, hlock]
  obtain ⟨earlier, hearlier, hsame, -⟩ := h.after.here _ hhere hmade
  obtain ⟨other, hother, rfl⟩ := Option.map_eq_some_iff.mp hearlier
  exact hne (hother.trans (congrArg some hsame))

theorem Later.not_holds (h : Later process s t writer) {dir : Dir κ} (hmade : dir.number < s.next)
    (hfree : ¬(s.custody process).holds dir) : ¬(t.custody process).holds dir :=
  fun hholds => hfree (h.after.holds dir hmade hholds)

/-- What a writer knows stays true while the owner file of its own lock stays as it is. -/
theorem Knows.later (h : Later process s t writer) {phase : Phase κ τ}
    (hfile : ∀ dir, phase.dir? = some dir → t.file dir = s.file dir)
    (hknows : Knows process s phase) : Knows process t phase := by
  unfold Knows at hknows ⊢
  split
  · next dir =>
    rw [hfile dir rfl]
    exact hknows
  · next dir opened =>
    rw [hfile dir rfl]
    exact hknows
  · next observed =>
    obtain ⟨hmade, hfree, hpast⟩ := hknows
    exact ⟨h.after.made _ hmade, fun hunread => h.not_holds hmade (hfree hunread),
      fun hread => h.past _ hmade (hpast hread)⟩
  · next observed owner =>
    obtain ⟨hmade, hcases⟩ := hknows
    exact ⟨h.after.made _ hmade, hcases.imp id (Or.imp (h.lock_ne hmade) (h.not_holds hmade))⟩
  · next observed =>
    obtain ⟨hmade, hcases⟩ := hknows
    refine ⟨h.after.made _ hmade, hcases.imp (h.not_holds hmade) (Or.imp (h.lock_ne hmade) ?_)⟩
    rintro ⟨hread, hpast, hunread⟩
    exact ⟨hread, h.past _ hmade hpast, h.unread _ hmade hpast hunread⟩
  · exact hknows
  · exact hknows
  · trivial

/-! ### Turns of a writer -/

variable [DecidableEq κ] {next : Phase κ τ}

/-- The writer went to the phase `next`. -/
structure Turned (s t : State κ π τ) (writer : κ) (next : Phase κ τ) : Prop where
  phase : t.phase = Function.update s.phase writer next
  crashed : t.crashed = s.crashed

theorem Turned.other (h : Turned s t writer next) {other : κ} (hne : other ≠ writer) :
    t.phase other = s.phase other := by
  rw [h.phase, Function.update_of_ne hne]

theorem Turned.self (h : Turned s t writer next) : t.phase writer = next := by
  rw [h.phase, Function.update_self]

/-- Who holds after a turn held before it, unless the turn gives its writer a directory. -/
theorem Turned.holds (h : Turned s t writer next)
    (hdir : ∀ dir, next.dir? = some dir → (s.phase writer).dir? = some dir) (dir : Dir κ)
    (hholds : (t.custody process).holds dir) : (s.custody process).holds dir := by
  obtain ⟨hlive, hworks⟩ := hholds
  rw [Live, h.crashed] at hlive
  refine ⟨hlive, ?_⟩
  by_cases heq : dir.maker = writer
  · rw [heq, h.self] at hworks
    rw [heq]
    exact hdir dir hworks
  · rwa [h.other heq] at hworks

theorem Turned.moves (h : Turned s t writer next) (hnext : s.next ≤ t.next)
    (hchange : Change (s.custody process) (t.custody process)) :
    Moves (s.custody process) (t.custody process) := by
  refine ⟨fun dir hmade => lt_of_lt_of_le hmade hnext, ?_, hchange⟩
  intro dir hdead
  change t.crashed _ = true
  rwa [h.crashed]

/-- What a turn does to the owner files of its writer's own directories. -/
structure Files (s t : State κ π τ) (writer : κ) : Prop where
  other : ∀ dir : Dir κ, dir.maker ≠ writer → t.file dir = s.file dir
  fresh : ∀ dir : Dir κ, t.next ≤ dir.number → t.file dir = none
  owner : ∀ dir file, t.file dir = some file → file.owner = dir.maker
  past : ∀ dir : Dir κ, dir.number < s.next → dir.maker = writer → Past s dir →
    Past t dir ∧ (readOwner (s.file dir) = none → readOwner (t.file dir) = none)

theorem Turned.later (h : Turned s t writer next)
    (hmoves : Moves (s.custody process) (t.custody process)) (hfiles : Files s t writer) :
    Later process s t writer := by
  refine ⟨hmoves.after, hfiles.other, ?_, ?_⟩
  · intro dir hmade hpast
    by_cases heq : dir.maker = writer
    · exact (hfiles.past dir hmade heq hpast).1
    · rw [Past, h.other heq]
      exact hpast
  · intro dir hmade hpast hunread
    by_cases heq : dir.maker = writer
    · exact (hfiles.past dir hmade heq hpast).2 hunread
    · rw [hfiles.other dir heq]
      exact hunread

/-- **Turns.**  A turn keeps the state sound when it moves the lock as it may, changes only its
own owner files, and the writer knows enough for its next phase. -/
theorem Sound.turn (h : Sound process s) (hturned : Turned s t writer next)
    (hmoves : Moves (s.custody process) (t.custody process)) (hfiles : Files s t writer)
    (hdir : ∀ dir, next.dir? = some dir → dir.maker = writer) (hknows : Knows process t next) :
    Sound process t := by
  refine ⟨h.guarded.moves hmoves, ?_, hfiles.fresh, hfiles.owner, ?_⟩
  · intro other dir hother
    by_cases heq : other = writer
    · rw [heq, hturned.self] at hother
      rw [heq]
      exact hdir dir hother
    · rw [hturned.other heq] at hother
      exact h.own other dir hother
  · intro other
    by_cases heq : other = writer
    · rw [heq, hturned.self]
      exact hknows
    · rw [hturned.other heq]
      refine (h.knows other).later (hturned.later hmoves hfiles) fun dir hdir => ?_
      exact hfiles.other dir (h.own other dir hdir ▸ heq)

/-- A phase that keeps the writer's directory, or drops it, and leaves its owner file as it is. -/
structure Keeps (phase next : Phase κ τ) : Prop where
  dir : ∀ dir, next.dir? = some dir → phase.dir? = some dir
  writes : next.Writes → phase.Writes

theorem Sound.files_of_eq (h : Sound process s) (hturned : Turned s t writer next)
    (hkeeps : Keeps (s.phase writer) next) (hfile : t.file = s.file) (hnext : t.next = s.next) :
    Files s t writer := by
  refine ⟨fun dir _ => by rw [hfile], ?_, ?_, ?_⟩
  · intro dir hdir
    rw [hfile]
    exact h.fresh dir (hnext ▸ hdir)
  · intro dir file hdir
    rw [hfile] at hdir
    exact h.owner dir file hdir
  · intro dir _ heq hpast
    refine ⟨?_, by rw [hfile]; exact id⟩
    rw [Past, heq] at hpast ⊢
    rw [hturned.self]
    exact fun hwrites hworks => hpast (hkeeps.writes hwrites) (hkeeps.dir dir hworks)

/-- A turn that touches neither the lock nor its owner files. -/
theorem Sound.goto (h : Sound process s) (hturned : Turned s t writer next)
    (hkeeps : Keeps (s.phase writer) next) (hlock : t.lock = s.lock) (hfile : t.file = s.file)
    (hnext : t.next = s.next) (hknows : Knows process s next) : Sound process t := by
  have hhere : (t.custody process).here = (s.custody process).here := by
    simp only [State.custody, hlock]
  have hmoves : Moves (s.custody process) (t.custody process) :=
    hturned.moves hnext.ge (Change.none hhere (hturned.holds hkeeps.dir))
  have hfiles := h.files_of_eq hturned hkeeps hfile hnext
  exact h.turn hturned hmoves hfiles (fun dir hdir => h.own writer dir (hkeeps.dir dir hdir))
    (hknows.later (hturned.later hmoves hfiles) fun dir _ => by rw [hfile])

/-- A turn after which nothing stands at the lock's name. -/
theorem Sound.vacate (h : Sound process s) (hturned : Turned s t writer next)
    (hkeeps : Keeps (s.phase writer) next) (hlock : t.lock = none) (hfile : t.file = s.file)
    (hnext : t.next = s.next) (hknows : Knows process t next)
    (hstale : ∀ dir, s.lock = some dir → ¬(t.custody process).holds dir) : Sound process t := by
  have hmoves : Moves (s.custody process) (t.custody process) := by
    refine hturned.moves hnext.ge (Change.remove ?_ (hturned.holds hkeeps.dir) ?_)
    · simp only [State.custody, hlock, Option.map_none]
    · intro file hlocked
      obtain ⟨dir, hdir, rfl⟩ := Option.map_eq_some_iff.mp hlocked
      exact hstale dir hdir
  exact h.turn hturned hmoves (h.files_of_eq hturned hkeeps hfile hnext)
    (fun dir hdir => h.own writer dir (hkeeps.dir dir hdir)) hknows

omit [DecidableEq κ] in
/-- The lock of a live writer that works with its directory is that directory. -/
theorem Sound.lock_eq (h : Sound process s) (hlive : Live process s writer) {dir : Dir κ}
    (hdir : (s.phase writer).dir? = some dir) : s.lock = some dir ∧ dir.maker = writer := by
  have hmaker := h.own writer dir hdir
  have hheld := h.guarded.held dir ⟨hmaker ▸ hlive, hmaker ▸ hdir⟩
  rw [Option.map_eq_some_iff] at hheld
  obtain ⟨file, hfile, howner⟩ := hheld
  obtain ⟨other, hother, rfl⟩ := Option.map_eq_some_iff.mp hfile
  exact ⟨hother.trans (congrArg some howner), hmaker⟩

/-- A turn that writes or removes the owner file of the writer's own lock. -/
theorem Sound.setFile (h : Sound process s) {dir : Dir κ} {file : Option (OwnedFile κ)}
    (hdir : (s.phase writer).dir? = some dir) (hkeeps : Keeps (s.phase writer) next)
    (hmade : dir.number < s.next) (hfile : ∀ f, file = some f → f.owner = dir.maker)
    (hread : Past s dir → readOwner file = none)
    (hknows : Knows process ((s.setFile dir file).goto writer next) next) :
    Sound process ((s.setFile dir file).goto writer next) := by
  have hmaker := h.own writer dir hdir
  have hturned : Turned s ((s.setFile dir file).goto writer next) writer next := ⟨rfl, rfl⟩
  have hother : ∀ other, other ≠ dir →
      ((s.setFile dir file).goto writer next).file other = s.file other :=
    fun other hne => Function.update_of_ne hne _ _
  have hself : ((s.setFile dir file).goto writer next).file dir = file := Function.update_self _ _ _
  refine h.turn hturned (hturned.moves le_rfl (Change.none rfl (hturned.holds hkeeps.dir))) ?_
    (fun other hworks => h.own writer other (hkeeps.dir other hworks)) hknows
  refine ⟨?_, ?_, ?_, ?_⟩
  · exact fun other hne => hother other fun heq => hne (heq ▸ hmaker)
  · intro other hfresh
    rw [hother other (fun heq => absurd hmade (heq ▸ not_lt.mpr hfresh))]
    exact h.fresh other hfresh
  · intro other f hf
    by_cases heq : other = dir
    · subst heq
      exact hfile f (hself.symm.trans hf)
    · rw [hother other heq] at hf
      exact h.owner other f hf
  · intro other _ hwriter hpast
    refine ⟨?_, ?_⟩
    · rw [Past, hwriter] at hpast ⊢
      rw [hturned.self]
      exact fun hwrites hworks => hpast (hkeeps.writes hwrites) (hkeeps.dir other hworks)
    · by_cases heq : other = dir
      · subst heq
        rw [hself]
        exact fun _ => hread hpast
      · rw [hother other heq]
        exact id

/-- The exclusive creation of the lock directory. -/
theorem Sound.make (h : Sound process s) {ticket : τ} (hlock : s.lock = none) :
    Sound process { s.goto writer (.attempting ticket (.naming ⟨writer, s.next⟩)) with
      lock := some ⟨writer, s.next⟩
      next := s.next + 1 } := by
  have hturned : Turned s { s.goto writer (.attempting ticket (.naming ⟨writer, s.next⟩)) with
      lock := some ⟨writer, s.next⟩
      next := s.next + 1 } writer (.attempting ticket (.naming ⟨writer, s.next⟩)) := ⟨rfl, rfl⟩
  have hnone : s.file ⟨writer, s.next⟩ = none := h.fresh _ le_rfl
  refine h.turn hturned (hturned.moves (Nat.le_succ _) ?_) ?_ ?_ hnone
  · refine Change.create ⟨writer, s.next⟩ (by simp [State.custody, hlock]) (lt_irrefl s.next) rfl
      (Nat.lt_succ_self s.next) ?_
    rintro dir ⟨hlive, hworks⟩
    by_cases heq : dir.maker = writer
    · rw [heq, hturned.self] at hworks
      exact Or.inl (Option.some.inj hworks).symm
    · rw [hturned.other heq] at hworks
      exact Or.inr ⟨hlive, hworks⟩
  · refine ⟨fun _ _ => rfl, fun dir hdir => h.fresh dir (Nat.le_of_succ_le hdir), h.owner, ?_⟩
    rintro dir hmade heq -
    refine ⟨?_, id⟩
    rw [Past, heq, hturned.self]
    rintro - hworks
    have hnumber : s.next = dir.number := congrArg Dir.number (Option.some.inj hworks)
    exact absurd hmade (hnumber ▸ lt_irrefl _)
  · rintro dir ⟨⟩
    exact rfl

/-! ### The steps of an attempt -/

omit [DecidableEq κ] in
theorem Sound.made (h : Sound process s) {dir : Dir κ} (hlock : s.lock = some dir) :
    dir.number < s.next :=
  h.guarded.made ⟨dir, false⟩ (by simp [State.custody, hlock])

omit [DecidableEq κ] in
theorem Knows.unread {phase : Phase κ τ} (hknows : Knows process s phase) (hwrites : phase.Writes)
    {dir : Dir κ} (hdir : phase.dir? = some dir) : readOwner (s.file dir) = none := by
  cases phase with
  | attempting ticket place =>
    cases place with
    | naming made =>
      obtain rfl := Option.some.inj hdir
      have hnone : s.file made = none := hknows
      rw [hnone]
      exact rfl
    | filling made opened =>
      obtain rfl := Option.some.inj hdir
      exact hknows.2
    | _ => exact hwrites.elim
  | _ => exact hwrites.elim

omit [DecidableEq κ] in
/-- An owner file that can be read is finished. -/
theorem Sound.past_of_read (h : Sound process s) {dir : Dir κ} (hread : readOwner (s.file dir) ≠ none) :
    Past s dir :=
  fun hwrites hworks => hread ((h.knows dir.maker).unread hwrites hworks)

theorem readOwner_eq_some {α : Type*} {file : Option (OwnedFile α)} {owner : α}
    (h : readOwner file = some owner) : file = some ⟨owner, true⟩ := by
  unfold readOwner at h
  split at h
  · rw [Option.some.inj h]
  · contradiction

/-- The old lock that is observed is no lock that a live writer has yet to name. -/
theorem Sound.observe (h : Sound process s) {dir : Dir κ} (hlock : s.lock = some dir)
    (hold : mayBeOld process s dir = true) {ticket : τ} :
    Knows process s (.attempting ticket (.judging ⟨dir, s.file dir⟩) : Phase κ τ) := by
  refine ⟨h.made hlock, ?_, h.past_of_read⟩
  rintro hunread ⟨hlive, hworks⟩
  rw [Live] at hlive
  simp [mayBeOld, hunread, hlive, hworks] at hold

/-- What the reading of the lock's owner tells about the lock that was observed. -/
theorem Sound.judge (h : Sound process s) {ticket : τ} {observed : Observed κ}
    (hknows : Knows process s (.attempting ticket (.judging observed) : Phase κ τ)) :
    match readLockOwner s with
    | none => Knows process s (.attempting ticket (.reclaiming observed) : Phase κ τ)
    | some owner => Knows process s (.attempting ticket (.checking observed owner) : Phase κ τ) := by
  obtain ⟨hmade, hfree, hpast⟩ := hknows
  split
  · next hread =>
    refine ⟨hmade, ?_⟩
    by_cases hlock : s.lock = some observed.dir
    · by_cases hunread : readOwner observed.file = none
      · exact Or.inl (hfree hunread)
      · rw [readLockOwner, hlock] at hread
        exact Or.inr (Or.inr ⟨hunread, hpast hunread, hread⟩)
    · exact Or.inr (Or.inl hlock)
  · next owner hread =>
    refine ⟨hmade, ?_⟩
    by_cases hlock : s.lock = some observed.dir
    · rw [readLockOwner, hlock] at hread
      exact Or.inl (h.owner _ _ (readOwner_eq_some hread))
    · exact Or.inr (Or.inl hlock)

omit [DecidableEq κ] in
/-- A lock that is found as it was observed and judged stale is held by nobody. -/
theorem Knows.stale {ticket : τ} {observed : Observed κ}
    (hknows : Knows process s (.attempting ticket (.reclaiming observed) : Phase κ τ))
    (hlock : s.lock = some observed.dir) (hfile : s.file observed.dir = observed.file) :
    ¬(s.custody process).holds observed.dir := by
  obtain ⟨-, hfree | hgone | ⟨hread, -, hunread⟩⟩ := hknows
  · exact hfree
  · exact absurd hlock hgone
  · exact absurd (hfile ▸ hunread) hread

omit [DecidableEq κ] in
theorem keeps_of_dir {phase next : Phase κ τ} {dir : Dir κ} (hphase : phase.dir? = some dir)
    (hdir : next.dir? = some dir) (hwrites : next.Writes → phase.Writes) : Keeps phase next :=
  ⟨fun _ hworks => hphase.trans (hdir.symm.trans hworks), hwrites⟩

omit [DecidableEq κ] in
theorem keeps_of_no_dir {phase next : Phase κ τ} (hdir : next.dir? = none) (hwrites : ¬next.Writes) :
    Keeps phase next :=
  ⟨fun _ hworks => (nomatch hdir.symm.trans hworks), fun h => absurd h hwrites⟩

/-- The calls with the writer's own directory. -/
theorem Sound.own_attempt (h : Sound process s) (hlive : Live process s writer) {ticket : τ}
    {place : Attempt κ} (hphase : s.phase writer = .attempting ticket place) {dir : Dir κ}
    (hplace : place.dir? = some dir) {answer : Bool}
    (hstep : attemptLock process s writer ticket answer place = .ok t) : Sound process t := by
  have hdir : (s.phase writer).dir? = some dir := hphase ▸ hplace
  obtain ⟨hlock, hmaker⟩ := h.lock_eq hlive hdir
  have hknows := h.knows writer
  rw [hphase] at hknows
  have hgoto : ∀ next : Phase κ τ, Keeps (s.phase writer) next → Knows process s next →
      Sound process (s.goto writer next) := fun next hkeeps =>
    h.goto ⟨rfl, rfl⟩ hkeeps rfl rfl rfl
  cases place with
  | naming made =>
    obtain rfl := Option.some.inj hplace
    have hnone : s.file made = none := hknows
    rw [attemptLock, hlock] at hstep
    dsimp only at hstep
    rw [hnone] at hstep
    obtain rfl := Except.ok.inj hstep
    refine h.setFile hdir (keeps_of_dir hdir rfl fun _ => hphase ▸ trivial) (h.made hlock) ?_ ?_ ?_
    · rintro f ⟨⟩
      exact hmaker.symm
    · exact fun _ => rfl
    · exact ⟨rfl, by simp [State.goto, State.setFile, readOwner]⟩
  | filling made opened =>
    obtain rfl := Option.some.inj hplace
    obtain ⟨rfl, -⟩ := hknows
    rw [attemptLock] at hstep
    split at hstep
    · obtain rfl := Except.ok.inj hstep
      refine h.setFile hdir (keeps_of_dir hdir rfl False.elim) (h.made hlock) ?_ ?_ ?_
      · intro f hf
        obtain ⟨earlier, hearlier, hsame, -⟩ := mark_eq_some hf
        exact hsame ▸ h.owner _ _ hearlier
      · intro hpast
        rw [Past, hmaker] at hpast
        exact absurd hdir (hpast (hphase ▸ trivial))
      · trivial
    · obtain rfl := Except.ok.inj hstep
      exact hgoto _ (keeps_of_dir hdir rfl False.elim) trivial
  | spoiling made =>
    obtain rfl := Option.some.inj hplace
    rw [attemptLock, State.unlink, hlock] at hstep
    obtain rfl := Except.ok.inj hstep
    refine h.setFile hdir (keeps_of_dir hdir rfl False.elim) (h.made hlock) ?_ ?_ ?_
    · exact fun f hf => nomatch hf
    · exact fun _ => rfl
    · trivial
  | clearing made =>
    obtain rfl := Option.some.inj hplace
    rw [attemptLock] at hstep
    split at hstep
    · obtain rfl := Except.ok.inj hstep
      refine h.vacate ⟨rfl, rfl⟩ (keeps_of_no_dir rfl id) rfl rfl rfl trivial ?_
      rintro other hother ⟨-, hworks⟩
      obtain rfl := Option.some.inj (hlock.symm.trans hother)
      simp [State.goto, hmaker, Phase.dir?, Outcome.dir?] at hworks
    · split at hstep
      · obtain rfl := Except.ok.inj hstep
        exact hgoto _ (keeps_of_dir hdir rfl False.elim) trivial
      · obtain rfl := Except.ok.inj hstep
        exact hgoto _ (keeps_of_no_dir rfl id) trivial
  | _ => contradiction

/-- The calls that judge and reclaim a lock that was there. -/
theorem Sound.attempt (h : Sound process s) (hlive : Live process s writer) {ticket : τ}
    {place : Attempt κ} (hphase : s.phase writer = .attempting ticket place) {answer : Bool}
    (hfinds : findsObserved s (.step writer answer : Event κ π τ) = true)
    (hstep : attemptLock process s writer ticket answer place = .ok t) : Sound process t := by
  have hknows := h.knows writer
  rw [hphase] at hknows
  have hgoto : ∀ next : Phase κ τ, next.dir? = none → ¬next.Writes → Knows process s next →
      Sound process (s.goto writer next) := fun next hnone hwrites =>
    h.goto ⟨rfl, rfl⟩ (keeps_of_no_dir hnone hwrites) rfl rfl rfl
  cases place with
  | making =>
    rw [attemptLock] at hstep
    split at hstep
    · next hlock =>
      obtain rfl := Except.ok.inj hstep
      exact h.make hlock
    · obtain rfl := Except.ok.inj hstep
      exact hgoto _ rfl id trivial
  | observing =>
    rw [attemptLock] at hstep
    split at hstep
    · obtain rfl := Except.ok.inj hstep
      exact hgoto _ rfl id trivial
    · next dir hlock =>
      split at hstep
      · obtain rfl := Except.ok.inj hstep
        exact hgoto _ rfl id trivial
      · split at hstep
        · next hold =>
          obtain rfl := Except.ok.inj hstep
          exact hgoto _ rfl id (h.observe hlock hold)
        · contradiction
  | judging observed =>
    have hjudged := h.judge hknows
    rw [attemptLock] at hstep
    split at hstep
    · next hread =>
      obtain rfl := Except.ok.inj hstep
      rw [hread] at hjudged
      exact hgoto _ rfl id hjudged
    · next owner hread =>
      obtain rfl := Except.ok.inj hstep
      rw [hread] at hjudged
      exact hgoto _ rfl id hjudged
  | checking observed owner =>
    obtain ⟨hmade, hcases⟩ := hknows
    rw [attemptLock] at hstep
    split at hstep
    · next hdead =>
      obtain rfl := Except.ok.inj hstep
      refine hgoto _ rfl id ⟨hmade, ?_⟩
      rcases hcases with rfl | hgone | hfree
      · exact Or.inl fun hholds => Bool.noConfusion (hdead.symm.trans hholds.1)
      · exact Or.inr (Or.inl hgone)
      · exact Or.inl hfree
    · obtain rfl := Except.ok.inj hstep
      exact hgoto _ rfl id trivial
  | reclaiming observed =>
    rw [attemptLock] at hstep
    split at hstep
    · obtain rfl := Except.ok.inj hstep
      exact hgoto _ rfl id trivial
    · next stolen hlock =>
      obtain rfl := Except.ok.inj hstep
      rw [findsObserved, hphase, hlock] at hfinds
      obtain ⟨hdir, hfile⟩ := Bool.and_eq_true_iff.mp hfinds
      obtain rfl := of_decide_eq_true hdir
      have hstale := Knows.stale hknows hlock (of_decide_eq_true hfile)
      have hturned : Turned s { s.goto writer (.attempting ticket (.comparing observed observed.dir)) with
          lock := none } writer (.attempting ticket (.comparing observed observed.dir)) := ⟨rfl, rfl⟩
      have hkeeps : Keeps (s.phase writer)
          (.attempting ticket (.comparing observed observed.dir)) := keeps_of_no_dir rfl id
      refine h.vacate hturned hkeeps rfl rfl rfl rfl ?_
      intro other hother hholds
      obtain rfl := Option.some.inj (hlock.symm.trans hother)
      exact hstale (hturned.holds hkeeps.dir _ hholds)
  | comparing observed stolen =>
    have hsame : stolen = observed.dir := hknows
    rw [attemptLock, if_pos hsame] at hstep
    obtain rfl := Except.ok.inj hstep
    exact hgoto _ rfl id trivial
  | restoring stolen => exact hknows.elim
  | naming dir => exact h.own_attempt hlive hphase rfl hstep
  | filling dir opened => exact h.own_attempt hlive hphase rfl hstep
  | spoiling dir => exact h.own_attempt hlive hphase rfl hstep
  | clearing dir => exact h.own_attempt hlive hphase rfl hstep

/-! ### The gate and the rest of the call -/

/-- The step leaves the lock and its owner files as they are. -/
structure Spares (s t : State κ π τ) : Prop where
  lock : t.lock = s.lock
  file : t.file = s.file
  next : t.next = s.next

theorem Sound.spared (h : Sound process s) (hturned : Turned s t writer next) (hspares : Spares s t)
    (hkeeps : Keeps (s.phase writer) next) (hknows : Knows process s next) : Sound process t :=
  h.goto hturned hkeeps hspares.lock hspares.file hspares.next hknows

/-- A writer without a directory, at a call that concerns the queue alone. -/
theorem Sound.leave (h : Sound process s) (writer : κ) {next : Phase κ τ} (hdir : next.dir? = none)
    (hwrites : ¬next.Writes) (hknows : Knows process s next)
    {tickets : List (OwnedFile (Token κ τ))} {drawn : List τ} :
    Sound process { s.goto writer next with tickets := tickets, drawn := drawn } := by
  have hturned : Turned s { s.goto writer next with tickets := tickets, drawn := drawn } writer next :=
    ⟨rfl, rfl⟩
  exact h.goto hturned (keeps_of_no_dir hdir hwrites) rfl rfl rfl hknows

variable [LinearOrder τ]

/-- A call at the gate leaves the lock alone. -/
theorem gate_spares {ticket : τ} {answer : Bool} {place : Gate κ τ}
    (hstep : withWriterAcquisitionGate process s writer ticket answer place = .ok t) :
    ∃ next : Phase κ τ, Turned s t writer next ∧ Spares s t ∧ next.dir? = none ∧ ¬next.Writes ∧
      Knows process s next := by
  unfold withWriterAcquisitionGate at hstep
  split at hstep
  all_goals
    repeat' split at hstep
    all_goals
      obtain rfl := Except.ok.inj hstep
      exact ⟨_, ⟨rfl, rfl⟩, ⟨rfl, rfl, rfl⟩, rfl, id, trivial⟩

/-- A call that leaves the gate keeps the writer's directory, or drops none but its own. -/
theorem leaveGate_spares {ticket : τ} {outcome : Outcome κ} {answer : Bool} {place : Leave}
    (hstep : leaveGate s writer ticket outcome answer place = .ok t) :
    ∃ next : Phase κ τ, Turned s t writer next ∧ Spares s t ∧
      (∀ dir, next.dir? = some dir → outcome.dir? = some dir) ∧ ¬next.Writes ∧ Knows process s next := by
  cases outcome <;> cases place <;> unfold leaveGate at hstep <;> dsimp only at hstep
  all_goals
    repeat' split at hstep
    all_goals
      obtain rfl := Except.ok.inj hstep
      exact ⟨_, ⟨rfl, rfl⟩, ⟨rfl, rfl, rfl⟩, fun _ => id, id, trivial⟩

/-- The calls after the gate. -/
theorem Sound.close (h : Sound process s) (hlive : Live process s writer) {dir : Dir κ}
    (hdir : (s.phase writer).dir? = some dir) {answer : Bool} {phase : Phase κ τ}
    (hphase : phase = .verifying dir ∨ phase = .running dir ∨ phase = .closing dir ∨
      phase = .unlinking dir ∨ phase = .clearing dir)
    (hstep : withWriterLock process s writer answer phase = .ok t) : Sound process t := by
  obtain ⟨hlock, hmaker⟩ := h.lock_eq hlive hdir
  have hkeep : ∀ next : Phase κ τ, next.dir? = some dir → ¬next.Writes → Knows process s next →
      Sound process (s.goto writer next) := fun next hnext hwrites =>
    h.goto ⟨rfl, rfl⟩ (keeps_of_dir hdir hnext fun hw => absurd hw hwrites) rfl rfl rfl
  have hdone : Sound process (s.goto writer .done) :=
    h.goto ⟨rfl, rfl⟩ (keeps_of_no_dir rfl id) rfl rfl rfl trivial
  rcases hphase with rfl | rfl | rfl | rfl | rfl
  · obtain rfl := Except.ok.inj hstep
    split
    · exact hkeep _ rfl id trivial
    · exact hkeep _ rfl id trivial
  · obtain rfl := Except.ok.inj hstep
    exact hkeep _ rfl id trivial
  · obtain rfl := Except.ok.inj hstep
    split
    · exact hkeep _ rfl id trivial
    · exact hdone
  · rw [withWriterLock, State.unlink, hlock] at hstep
    obtain rfl := Except.ok.inj hstep
    refine h.setFile hdir (keeps_of_dir hdir rfl False.elim) (h.made hlock) ?_ ?_ ?_
    · exact fun f hf => nomatch hf
    · exact fun _ => rfl
    · trivial
  · rw [withWriterLock] at hstep
    split at hstep
    · obtain rfl := Except.ok.inj hstep
      refine h.vacate ⟨rfl, rfl⟩ (keeps_of_no_dir rfl id) rfl rfl rfl trivial ?_
      rintro other hother ⟨-, hworks⟩
      obtain rfl := Option.some.inj (hlock.symm.trans hother)
      simp [State.goto, hmaker, Phase.dir?] at hworks
    · split at hstep
      · obtain rfl := Except.ok.inj hstep
        exact hkeep _ rfl id trivial
      · obtain rfl := Except.ok.inj hstep
        exact hdone

/-- A live writer keeps the state sound with every call, when the lock that it reclaims is the
one that it observed. -/
theorem Sound.call (h : Sound process s) (hlive : Live process s writer) {answer : Bool}
    (hfinds : findsObserved s (.step writer answer : Event κ π τ) = true)
    (hstep : withWriterLock process s writer answer (s.phase writer) = .ok t) : Sound process t := by
  cases hphase : s.phase writer with
  | gating ticket place =>
    rw [hphase] at hstep
    obtain ⟨next, hturned, hspares, hdir, hwrites, hknows⟩ := gate_spares hstep
    exact h.spared hturned hspares (keeps_of_no_dir hdir hwrites) hknows
  | attempting ticket place =>
    rw [hphase] at hstep
    exact h.attempt hlive hphase hfinds hstep
  | leaving ticket outcome place =>
    rw [hphase] at hstep
    obtain ⟨next, hturned, hspares, hdir, hwrites, hknows⟩ := leaveGate_spares hstep
    have hkeeps : Keeps (s.phase writer) next :=
      ⟨fun dir hworks => hphase ▸ hdir dir hworks, fun hw => absurd hw hwrites⟩
    exact h.spared hturned hspares hkeeps hknows
  | verifying dir => exact h.close hlive (by rw [hphase]; exact rfl) (by simp) (hphase ▸ hstep)
  | running dir => exact h.close hlive (by rw [hphase]; exact rfl) (by simp) (hphase ▸ hstep)
  | closing dir => exact h.close hlive (by rw [hphase]; exact rfl) (by simp) (hphase ▸ hstep)
  | unlinking dir => exact h.close hlive (by rw [hphase]; exact rfl) (by simp) (hphase ▸ hstep)
  | clearing dir => exact h.close hlive (by rw [hphase]; exact rfl) (by simp) (hphase ▸ hstep)
  | queueing =>
    rw [hphase] at hstep
    contradiction
  | done =>
    rw [hphase] at hstep
    contradiction

omit [DecidableEq κ] [LinearOrder τ] in
/-- A crash takes nothing from the name. -/
theorem Sound.crash [DecidableEq π] (h : Sound process s) (dead : π) :
    Sound process { s with crashed := Function.update s.crashed dead true } := by
  have hcrashed : ∀ p, s.crashed p = true → Function.update s.crashed dead true p = true := by
    intro p hp
    by_cases heq : p = dead
    · rw [heq, Function.update_self]
    · rwa [Function.update_of_ne heq]
  have hmoves : Moves (s.custody process)
      (State.custody process { s with crashed := Function.update s.crashed dead true }) := by
    refine ⟨fun _ hmade => hmade, fun dir => hcrashed (process dir.maker), Change.none rfl ?_⟩
    rintro dir ⟨hlive, hworks⟩
    refine ⟨?_, hworks⟩
    by_contra hdead
    exact Bool.noConfusion ((hcrashed _ (eq_true_of_ne_false hdead)).symm.trans hlive)
  refine ⟨h.guarded.moves hmoves, h.own, h.fresh, h.owner, fun writer => ?_⟩
  have hlater : Later process s { s with crashed := Function.update s.crashed dead true } writer :=
    ⟨hmoves.after, fun _ _ => rfl, fun _ _ hpast => hpast, fun _ _ _ hunread => hunread⟩
  exact (h.knows writer).later hlater fun _ _ => rfl

omit [DecidableEq κ] [LinearOrder τ] in
theorem sound_initial : Sound process (initial : State κ π τ) where
  guarded := by
    constructor
    · rintro dir ⟨-, hworks⟩
      contradiction
    · intro file hfile
      contradiction
  own := by
    intro writer dir hworks
    contradiction
  fresh _ _ := rfl
  owner := by
    intro dir file hfile
    contradiction
  knows _ := trivial

/-- **Step lemma.** -/
theorem Sound.step [DecidableEq π] (h : Sound process s) {event : Event κ π τ}
    (hfinds : findsObserved s event = true) (hstep : step process s event = .ok t) :
    Sound process t := by
  cases event with
  | queue writer ticket =>
    rw [RuntimeImages.step] at hstep
    split at hstep
    · contradiction
    · obtain rfl := Except.ok.inj hstep
      exact h.leave writer rfl id (by trivial)
  | step writer answer =>
    rw [RuntimeImages.step] at hstep
    split at hstep
    · contradiction
    · next hlive => exact h.call (eq_false_of_ne_true hlive) hfinds hstep
  | busy writer =>
    rw [RuntimeImages.step] at hstep
    split at hstep
    · contradiction
    · split at hstep
      · obtain rfl := Except.ok.inj hstep
        exact h.leave writer rfl id (by trivial)
      · obtain rfl := Except.ok.inj hstep
        exact h.leave writer rfl id (by trivial)
      · contradiction
  | crash dead =>
    obtain rfl := Except.ok.inj hstep
    exact h.crash dead

omit [DecidableEq κ] [LinearOrder τ] in
theorem Sound.excludes (h : Sound process s) : Excludes process s := by
  intro a b ha hb hainside hbinside
  have hdir : ∀ w, (s.phase w).Inside → ∃ dir, (s.phase w).dir? = some dir := by
    intro w hinside
    cases hphase : s.phase w with
    | running dir => exact ⟨dir, rfl⟩
    | _ =>
      rw [hphase] at hinside
      exact hinside.elim
  obtain ⟨left, hleft⟩ := hdir a hainside
  obtain ⟨right, hright⟩ := hdir b hbinside
  obtain ⟨hlock, rfl⟩ := h.lock_eq ha hleft
  obtain ⟨hlock', rfl⟩ := h.lock_eq hb hright
  exact congrArg Dir.maker (Option.some.inj (hlock.symm.trans hlock'))

/-- **In a run whose reclamations find the lock that was observed, with the owner file that it
had, or none, at most one live writer is inside its section.** -/
theorem writers_exclude [DecidableEq π] (process : κ → π) {events : List (Event κ π τ)}
    {state : State κ π τ} (hrun : run (step process) initial events = .ok state)
    (hfinds : Accepted (step process) (fun s event => findsObserved s event) initial events) :
    Excludes process state :=
  (run_invariant_of_accepted (fun _ _ _ h hevent hstep => Sound.step h hevent hstep)
    sound_initial hfinds hrun).excludes

/-- The writer's next calls of the file system. -/
def calls (writer n : ℕ) : List (Event ℕ ℕ ℕ) := List.replicate n (.step writer true)

/-- A writer crashes inside its section. -/
def crashed : List (Event ℕ ℕ ℕ) := .queue 9 90 :: calls 9 15 ++ [.crash 9]

/-- The next writer reclaims the lock, and enters. -/
def recovery : List (Event ℕ ℕ ℕ) := crashed ++ .queue 2 20 :: calls 2 17 ++ .queue 2 21 :: calls 2 15

theorem writers_exclude_recovery :
    ∃ state, run (step id) initial recovery = .ok state ∧ (state.phase 2).Inside ∧ Excludes id state :=
  ⟨_, rfl, trivial, @writers_exclude ℕ ℕ ℕ _ _ _ id recovery _ rfl (by decide)⟩

/-- Writer 1, whose ticket sorts first, removes the gate of writer 2 after it has entered, reclaims
the lock that both have judged, and enters its section.  Writer 2 then renames the lock of writer 1
away, and writer 3 makes another. -/
def reclamations : List (Event ℕ ℕ ℕ) :=
  crashed ++ .queue 2 20 :: calls 2 6 ++ .queue 1 10 :: calls 1 8 ++ calls 2 5 ++ calls 1 20 ++
    .queue 1 11 :: calls 1 17 ++ calls 2 2 ++ .queue 3 5 :: calls 3 17

set_option maxRecDepth 4000 in
/-- **The reclamation of a stale lock breaches the exclusion.** -/
theorem reclaimed_lock_breaches :
    ¬∀ (events : List (Event ℕ ℕ ℕ)) (state : State ℕ ℕ ℕ),
      run (step id) initial events = .ok state → Excludes id state := by
  intro hall
  have hexcludes := hall reclamations _ rfl
  have heq : 1 = 3 := hexcludes 1 3 rfl rfl trivial trivial
  contradiction

end Delegatus.RuntimeImages
