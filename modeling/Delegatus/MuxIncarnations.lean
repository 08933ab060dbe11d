import Delegatus.MuxConnection
import Delegatus.Runs

/-!
# Incarnations of a channel

A channel id may name one channel object after another while the `run` of an earlier one
still waits. `Quiet` says that a step wrote no frame for a channel object and did not make it
live; every step is quiet for an object that is no longer live (`quiet_step`). `Good` is the
invariant of the connection: a live object is the one its id names, what it wrote fits where
its `run` waits, and whatever it wrote is a `Story`.
-/

namespace Delegatus.MuxConnection

open JsonText MuxFraming Runs

/-- The frames that the `run` of a channel object wrote. -/
def framesOf (t : Nat) (c : Connection) : List Frame :=
  (c.sent.filter (fun frame => frame.1 = some t)).map (·.2)

/-- The connection is open and an id names the channel object. -/
def Live (t : Nat) (c : Connection) : Prop :=
  c.closed = false ∧ ∃ entry ∈ c.channels.rows, entry.channel = t

/-! ### Steps that say nothing for a channel -/

structure Quiet (t : Nat) (c d : Connection) : Prop where
  frames : framesOf t d = framesOf t c
  live : Live t d → Live t c
  runs : c.runs.length ≤ d.runs.length

theorem Quiet.refl (t : Nat) (c : Connection) : Quiet t c c := ⟨rfl, id, Nat.le_refl _⟩

theorem Quiet.trans {t : Nat} {a b c : Connection} (hab : Quiet t a b) (hbc : Quiet t b c) :
    Quiet t a c :=
  ⟨hbc.frames.trans hab.frames, fun h => hab.live (hbc.live h), hab.runs.trans hbc.runs⟩

theorem quiet_updateRuns (t : Nat) (c : Connection) (f : Nat → Run → Run) :
    Quiet t c (c.updateRuns f) :=
  ⟨rfl, id, by simp [Connection.updateRuns]⟩

/-- Taking entries off and closing. -/
theorem quiet_of_subset {t : Nat} {c d : Connection} (hsent : d.sent = c.sent)
    (hruns : c.runs.length ≤ d.runs.length) (hclosed : c.closed = true → d.closed = true)
    (hrows : ∀ entry ∈ d.channels.rows, entry.channel = t → entry ∈ c.channels.rows) :
    Quiet t c d := by
  refine ⟨by rw [framesOf, framesOf, hsent], ?_, hruns⟩
  rintro ⟨hopen, entry, hentry, hchannel⟩
  refine ⟨?_, entry, hrows entry hentry hchannel, hchannel⟩
  cases hc : c.closed with
  | false => rfl
  | true => rw [hclosed hc] at hopen; cases hopen

theorem quiet_shutdown (t : Nat) (c : Connection) : Quiet t c c.shutdown := by
  unfold Connection.shutdown
  split
  · exact Quiet.refl t c
  · apply quiet_of_subset
    · rfl
    · simp [Connection.abort, Connection.updateRuns]
    · intro _
      rfl
    · intro entry hentry
      cases hentry

theorem framesOf_append (t : Nat) (c : Connection) (writer : Option Nat) (frames : List Frame) :
    framesOf t { c with sent := c.sent ++ frames.map (fun frame => (writer, frame)) } =
      framesOf t c ++ if writer = some t then frames else [] := by
  unfold framesOf
  dsimp only
  rw [List.filter_append, List.map_append, List.filter_map, List.map_map]
  split
  · rename_i h
    simp [Function.comp_def, h]
  · rename_i h
    simp [Function.comp_def, h]

/-- A closed connection takes no write. -/
theorem quiet_write {t : Nat} {writer : Option Nat} {c : Connection}
    (hwriter : c.closed = false → writer ≠ some t) (sink : Sink) (frames : List Frame) :
    Quiet t c (c.write sink writer frames) := by
  unfold Connection.write
  split
  · exact Quiet.refl t c
  · rename_i hclosed
    have htaken : Quiet t c
        { c with sent := c.sent ++ frames.map (fun frame => (writer, frame)) } := by
      refine ⟨?_, id, Nat.le_refl _⟩
      rw [framesOf_append, if_neg (hwriter (by simpa using hclosed)), List.append_nil]
    cases sink with
    | taken => exact htaken
    | full => exact htaken.trans (quiet_shutdown t _)
    | refused => exact quiet_shutdown t c

theorem live_of_current {c : Connection} {id : Text} {t : Nat} (hopen : c.closed = false)
    (h : current c id t = true) : Live t c := by
  unfold current at h
  obtain ⟨entry, hget, hchannel⟩ := (Option.any_eq_true ..).mp h
  exact ⟨hopen, entry, (Table.get?_eq_some.mp hget).1, by simpa using hchannel⟩

/-- What a channel object that its id names writes, where the object is not `t` or not live. -/
theorem not_writer {t other : Nat} {c : Connection} (h : other = t → ¬Live t c) {id : Text}
    (hcurrent : current c id other = true) (hopen : c.closed = false) : some other ≠ some t := by
  intro hsame
  have hother : other = t := Option.some.inj hsame
  exact h hother (hother ▸ live_of_current hopen hcurrent)

section Others

variable {t other : Nat} {c : Connection} (h : other = t → ¬Live t c)
include h

theorem quiet_finish (sink : Sink) (id : Text) (status : Nat) :
    Quiet t c (finish c sink other id status) := by
  have hphase : Quiet t c (c.setPhase other .settled) := quiet_updateRuns t c _
  unfold finish
  dsimp only
  split
  · rename_i hcurrent
    have hdelete : Quiet t c { c.setPhase other .settled with
        channels := (c.setPhase other .settled).channels.delete id } := by
      apply quiet_of_subset
      · rfl
      · exact hphase.runs
      · exact fun hclosed => hclosed
      · exact fun entry hentry _ => (Table.mem_delete.mp hentry).1
    refine hdelete.trans (quiet_write ?_ sink _)
    exact fun hopen => not_writer h hcurrent hopen
  · exact hphase

theorem quiet_runOpened (sink : Sink) (answer : Option Response) :
    Quiet t c (runOpened c sink other answer) := by
  unfold runOpened
  split
  · split
    · exact quiet_finish h sink _ _
    · split
      · exact quiet_finish h sink _ _
      · split_ifs with hcurrent
        · exact quiet_finish h sink _ _
        · exact quiet_finish h sink _ _
        · refine (quiet_updateRuns t c _).trans (quiet_write ?_ sink _)
          exact fun hopen => not_writer h (by simpa using hcurrent) hopen
  · exact Quiet.refl t c

theorem quiet_runRead (sink : Sink) (read : Read) : Quiet t c (runRead c sink other read) := by
  unfold runRead
  split
  · split
    · exact quiet_finish h sink _ _
    · exact quiet_finish h sink _ _
    · split_ifs with hcurrent
      · exact quiet_finish h sink _ _
      · dsimp only
        split
        · exact quiet_updateRuns t c _
        · refine (quiet_updateRuns t c _).trans (quiet_write ?_ sink _)
          exact fun hopen => not_writer h (by simpa using hcurrent) hopen
  · exact Quiet.refl t c

end Others

theorem quiet_dropPrevious (t : Nat) (c : Connection) (id : Text) :
    Quiet t c (dropPrevious c id) := by
  unfold dropPrevious
  split
  · exact Quiet.refl t c
  · apply quiet_of_subset
    · rfl
    · exact (quiet_updateRuns t c _).runs
    · exact fun hclosed => hclosed
    · exact fun entry hentry _ => (Table.mem_delete.mp hentry).1

/-- A new channel object is another than the earlier ones. -/
theorem quiet_openChannel {t : Nat} {c : Connection} (ht : t < c.runs.length) (outcome : Outcome)
    (id lastEventId : Text) : Quiet t c (openChannel c outcome id lastEventId) := by
  have hadded : Quiet t c { c with
      channels := c.channels.set { id, channel := c.runs.length }
      runs := c.runs ++ [{ id, lastEventId, phase := .opening, aborted := false }] } := by
    apply quiet_of_subset
    · rfl
    · simp
    · exact fun hclosed => hclosed
    · intro entry hentry hchannel
      rcases Table.mem_set.mp hentry with rfl | ⟨hold, -⟩
      · dsimp only at hchannel
        omega
      · exact hold
  unfold openChannel
  dsimp only
  split
  · refine hadded.trans (quiet_finish ?_ _ _ _)
    intro hsame
    omega
  · exact hadded

section Ops

variable (parseUrl : Text → Option Url) (base : Url)

/-- What an operation does once the previous channel is off. -/
theorem quiet_afterDrop {t : Nat} {c : Connection} (ht : t < c.runs.length)
    (call : MuxOp × Outcome) :
    Quiet t (dropPrevious c call.1.id) (applyMuxOp parseUrl base c call) := by
  have hdropped := quiet_dropPrevious t c call.1.id
  unfold applyMuxOp
  dsimp only
  split
  · exact Quiet.refl t _
  · split_ifs
    · exact quiet_write (by simp) _ _
    · exact quiet_write (by simp) _ _
    · exact quiet_openChannel (ht.trans_le hdropped.runs) _ _ _

theorem quiet_applyMuxOp {t : Nat} {c : Connection} (ht : t < c.runs.length)
    (call : MuxOp × Outcome) : Quiet t c (applyMuxOp parseUrl base c call) :=
  (quiet_dropPrevious t c call.1.id).trans (quiet_afterDrop parseUrl base ht call)

theorem quiet_applyOps {t : Nat} {c : Connection} (ht : t < c.runs.length)
    (ops : List (MuxOp × Outcome)) : Quiet t c (applyOps parseUrl base c ops) := by
  induction ops generalizing c with
  | nil => exact Quiet.refl t c
  | cons call ops ih =>
    have hfirst := quiet_applyMuxOp parseUrl base ht call
    exact hfirst.trans (ih (ht.trans_le hfirst.runs))

/-- Nothing that happens is heard from a channel object that is not live. -/
theorem quiet_step {t : Nat} {c : Connection} (ht : t < c.runs.length) (hlive : ¬Live t c)
    (s : Step) : Quiet t c (step parseUrl base c s).1 := by
  cases s with
  | ops ops =>
    simp only [step, applyMuxOps]
    split
    · exact Quiet.refl t c
    · exact quiet_applyOps parseUrl base ht ops
  | opened other answer sink => exact quiet_runOpened (fun _ => hlive) sink answer
  | read other read sink => exact quiet_runRead (fun _ => hlive) sink read
  | ping sink => exact quiet_write (by simp) sink _
  | leave => exact quiet_shutdown t c

theorem quiet_after {t : Nat} {c : Connection} (ht : t < c.runs.length) (hlive : ¬Live t c)
    (steps : List Step) : Quiet t c (after (step parseUrl base) c steps) := by
  induction steps generalizing c with
  | nil => exact Quiet.refl t c
  | cons s steps ih =>
    have hfirst := quiet_step parseUrl base ht hlive s
    exact hfirst.trans (ih (ht.trans_le hfirst.runs) (fun h => hlive (hfirst.live h)))

end Ops

/-! ### The invariant -/

/-- What the `run` of a channel may have written, in order. -/
inductive Story (id : Text) : List Frame → Prop where
  | silent : Story id []
  | refused (status : Nat) : Story id [.ended id status]
  | streaming (events : List SseEvent) : Story id (.up id :: events.map (.event id))
  | finished (events : List SseEvent) (status : Nat) :
    Story id (.up id :: events.map (.event id) ++ [.ended id status])

/-- What a live `run` wrote, by where it waits. -/
def Told (id : Text) (frames : List Frame) : Phase → Prop
  | .opening => frames = []
  | .reading _ => ∃ events : List SseEvent, frames = .up id :: events.map (.event id)
  | .settled => False

/-- A live `run` may still end. -/
theorem Told.ended {id : Text} {frames : List Frame} {phase : Phase} (h : Told id frames phase)
    (status : Nat) : Story id (frames ++ [.ended id status]) := by
  cases phase with
  | opening =>
    have hnil : frames = [] := h
    rw [hnil]
    exact .refused status
  | reading parser =>
    obtain ⟨events, rfl⟩ := h
    exact .finished events status
  | settled => cases h

/-- The map names a channel object by its own id. -/
def Named (c : Connection) : Prop :=
  ∀ entry ∈ c.channels.rows, ∃ run, c.runs[entry.channel]? = some run ∧ run.id = entry.id

structure Sound (c : Connection) : Prop where
  named : Named c
  limit : c.channels.rows.length ≤ MUX_MAX_CHANNELS
  writers : ∀ frame ∈ c.sent, ∀ t, frame.1 = some t → t < c.runs.length
  story : ∀ t run, c.runs[t]? = some run → Story run.id (framesOf t c)
  /-- Whoever still waits is named by the map or was aborted. -/
  released : ∀ t run, c.runs[t]? = some run → run.phase ≠ .settled → run.aborted = false →
    ∃ entry ∈ c.channels.rows, entry.channel = t

structure Good (c : Connection) : Prop extends Sound c where
  told : ∀ t run, c.runs[t]? = some run → Live t c → Told run.id (framesOf t c) run.phase

/-- Nobody is live on a closed connection. -/
theorem Sound.of_closed {c : Connection} (h : Sound c) (hclosed : c.closed = true) : Good c := by
  refine ⟨h, ?_⟩
  intro t run _ hlive
  rw [hlive.1] at hclosed
  cases hclosed

/-- The object of an entry is the one that its id names. -/
theorem Named.current {c : Connection} (h : Named c) {t : Nat} {run : Run}
    (hrun : c.runs[t]? = some run) {entry : Entry} (hentry : entry ∈ c.channels.rows)
    (hchannel : entry.channel = t) : entry.id = run.id ∧ current c run.id t = true := by
  obtain ⟨found, hfound, hid⟩ := h entry hentry
  rw [hchannel, hrun] at hfound
  cases hfound
  have hget : c.channels.get? run.id = some entry := Table.get?_eq_some.mpr ⟨hentry, hid.symm⟩
  refine ⟨hid.symm, ?_⟩
  unfold MuxConnection.current
  rw [hget]
  simpa using hchannel

theorem getElem?_abort (c : Connection) (p : Nat → Bool) (t : Nat) :
    (c.abort p).runs[t]? =
      (c.runs[t]?).map (fun run => if p t then { run with aborted := true } else run) := by
  simp [Connection.abort, Connection.updateRuns, List.getElem?_mapIdx]

theorem getElem?_setPhase (c : Connection) (other t : Nat) (phase : Phase) :
    (c.setPhase other phase).runs[t]? =
      (c.runs[t]?).map (fun run => if t = other then { run with phase } else run) := by
  simp [Connection.setPhase, Connection.updateRuns, List.getElem?_mapIdx]

section Abort

variable {c d : Connection} {p : Nat → Bool} (hruns : d.runs = (c.abort p).runs)
include hruns

theorem run_of_abort {t : Nat} {run : Run} (hrun : d.runs[t]? = some run) :
    ∃ old, c.runs[t]? = some old ∧ run.id = old.id ∧ run.phase = old.phase ∧
      (run.aborted = false → old.aborted = false ∧ p t = false) := by
  rw [hruns, getElem?_abort, Option.map_eq_some_iff] at hrun
  obtain ⟨old, hold, rfl⟩ := hrun
  refine ⟨old, hold, ?_⟩
  cases hp : p t with
  | true => simp
  | false => simp

/-- Aborting channel objects and taking entries off, where whoever lost its entry is aborted. -/
theorem Sound.of_abort (h : Sound c) (hsent : d.sent = c.sent)
    (hrows : d.channels.rows.Sublist c.channels.rows)
    (hlost : ∀ entry ∈ c.channels.rows, p entry.channel = false → entry ∈ d.channels.rows) :
    Sound d := by
  refine ⟨?_, hrows.length_le.trans h.limit, ?_, ?_, ?_⟩
  · intro entry hentry
    obtain ⟨old, hold, hid⟩ := h.named entry (hrows.subset hentry)
    refine ⟨if p entry.channel then { old with aborted := true } else old, ?_, ?_⟩
    · rw [hruns, getElem?_abort, hold, Option.map_some]
    · split
      · exact hid
      · exact hid
  · intro frame hframe t ht
    have hlt := h.writers frame (hsent ▸ hframe) t ht
    rw [hruns]
    simpa [Connection.abort, Connection.updateRuns] using hlt
  · intro t run hrun
    obtain ⟨old, hold, hid, -⟩ := run_of_abort hruns hrun
    rw [hid, framesOf, hsent]
    exact h.story t old hold
  · intro t run hrun hphase haborted
    obtain ⟨old, hold, -, hsame, hkept⟩ := run_of_abort hruns hrun
    obtain ⟨holdaborted, hp⟩ := hkept haborted
    obtain ⟨entry, hentry, hchannel⟩ := h.released t old hold (hsame ▸ hphase) holdaborted
    exact ⟨entry, hlost entry hentry (hchannel ▸ hp), hchannel⟩

end Abort

theorem Sound.shutdown {c : Connection} (h : Sound c) : Good c.shutdown := by
  unfold Connection.shutdown
  split
  · rename_i hclosed
    exact h.of_closed hclosed
  · apply Sound.of_closed
    · refine h.of_abort (p := fun t => c.channels.rows.any (·.channel = t)) rfl rfl
        (List.nil_sublist _) ?_
      intro entry hentry hp
      have hnone := List.any_eq_false.mp hp entry hentry
      simp at hnone
    · rfl

theorem Good.dropPrevious {c : Connection} (h : Good c) (id : Text) :
    Good (dropPrevious c id) := by
  unfold MuxConnection.dropPrevious
  split
  · exact h
  · rename_i previous hget
    have hruns : { c.abort (fun t => t = previous.channel) with
        channels := c.channels.delete id }.runs =
          (c.abort (fun t => t = previous.channel)).runs := rfl
    refine ⟨h.toSound.of_abort hruns rfl List.filter_sublist ?_, ?_⟩
    · intro entry hentry hp
      refine Table.mem_delete.mpr ⟨hentry, ?_⟩
      intro hid
      have hsame : c.channels.get? id = some entry := Table.get?_eq_some.mpr ⟨hentry, hid⟩
      rw [hget] at hsame
      cases hsame
      simp at hp
    · intro t run hrun hlive
      obtain ⟨old, hold, hid, hphase, -⟩ := run_of_abort hruns hrun
      obtain ⟨hopen, entry, hentry, hchannel⟩ := hlive
      rw [hid, hphase]
      exact h.told t old hold ⟨hopen, entry, (Table.mem_delete.mp hentry).1, hchannel⟩

/-- A write of the connection itself. -/
theorem Good.write {c : Connection} (h : Good c) (sink : Sink) (frames : List Frame) :
    Good (c.write sink none frames) := by
  have hframes : ∀ t, framesOf t { c with
      sent := c.sent ++ frames.map (fun frame => (none, frame)) } = framesOf t c := by
    intro t
    rw [framesOf_append]
    simp
  have htaken : Good { c with sent := c.sent ++ frames.map (fun frame => (none, frame)) } := by
    refine ⟨⟨h.named, h.limit, ?_, ?_, h.released⟩, ?_⟩
    · intro frame hframe t ht
      rcases List.mem_append.mp hframe with hold | hnew
      · exact h.writers frame hold t ht
      · obtain ⟨raw, -, rfl⟩ := List.mem_map.mp hnew
        cases ht
    · intro t run hrun
      rw [hframes]
      exact h.story t run hrun
    · intro t run hrun hlive
      rw [hframes]
      exact h.told t run hrun hlive
  unfold Connection.write
  split
  · exact h
  · cases sink with
    | taken => exact htaken
    | full => exact htaken.shutdown
    | refused => exact h.shutdown

/-! ### The run of a live channel -/

/-- Frames of a channel object are added to its own. -/
theorem Sound.wrote {d : Connection} {t : Nat} (h : Sound d) {frames : List Frame}
    (hlt : t < d.runs.length)
    (hstory : ∀ now, d.runs[t]? = some now → Story now.id (framesOf t d ++ frames)) :
    Sound { d with sent := d.sent ++ frames.map (fun frame => (some t, frame)) } := by
  refine ⟨h.named, h.limit, ?_, ?_, h.released⟩
  · intro frame hframe other hother
    rcases List.mem_append.mp hframe with hold | hnew
    · exact h.writers frame hold other hother
    · obtain ⟨raw, -, rfl⟩ := List.mem_map.mp hnew
      cases hother
      exact hlt
  · intro other now hnow
    rw [framesOf_append]
    by_cases heq : other = t
    · subst heq
      rw [if_pos rfl]
      exact hstory now hnow
    · rw [if_neg (fun hsame => heq (Option.some.inj hsame).symm), List.append_nil]
      exact h.story other now hnow

section Act

variable {c : Connection} {t : Nat} {run : Run} (hrun : c.runs[t]? = some run)
include hrun

theorem run_of_setPhase {phase : Phase} {other : Nat} {now : Run}
    (hnow : (c.setPhase t phase).runs[other]? = some now) :
    ∃ old, c.runs[other]? = some old ∧ now.id = old.id ∧ now.aborted = old.aborted ∧
      (other ≠ t → now.phase = old.phase) ∧ (other = t → old = run ∧ now.phase = phase) := by
  rw [getElem?_setPhase, Option.map_eq_some_iff] at hnow
  obtain ⟨old, hold, rfl⟩ := hnow
  refine ⟨old, hold, ?_⟩
  by_cases hsame : other = t
  · subst hsame
    rw [hrun] at hold
    cases hold
    simp
  · simp [hsame]

/-- The `run` of a channel object goes on to `phase`, and takes no entry but its own off. -/
theorem Sound.setPhase (h : Sound c) {phase : Phase} {channels : Table Entry.id}
    (hrows : channels.rows.Sublist c.channels.rows)
    (hkept : ∀ entry ∈ c.channels.rows, entry.channel ≠ t → entry ∈ channels.rows)
    (hover : phase ≠ .settled → run.aborted = false → ∃ entry ∈ channels.rows, entry.channel = t) :
    Sound { c.setPhase t phase with channels } := by
  refine ⟨?_, hrows.length_le.trans h.limit, ?_, ?_, ?_⟩
  · intro entry hentry
    obtain ⟨old, hold, hid⟩ := h.named entry (hrows.subset hentry)
    refine ⟨if entry.channel = t then { old with phase } else old, ?_, ?_⟩
    · change (c.setPhase t phase).runs[entry.channel]? = _
      rw [getElem?_setPhase, hold, Option.map_some]
    · split
      · exact hid
      · exact hid
  · intro frame hframe other hother
    have hlt := h.writers frame hframe other hother
    simpa [Connection.setPhase, Connection.updateRuns] using hlt
  · intro other now hnow
    obtain ⟨old, hold, hid, -⟩ := run_of_setPhase hrun hnow
    rw [hid]
    exact h.story other old hold
  · intro other now hnow hphase haborted
    obtain ⟨old, hold, -, hsame, hrest, hown⟩ := run_of_setPhase hrun hnow
    by_cases heq : other = t
    · obtain ⟨rfl, hnowphase⟩ := hown heq
      rw [heq]
      exact hover (hnowphase ▸ hphase) (hsame ▸ haborted)
    · obtain ⟨entry, hentry, hchannel⟩ :=
        h.released other old hold (hrest heq ▸ hphase) (hsame ▸ haborted)
      exact ⟨entry, hkept entry hentry (hchannel ▸ heq), hchannel⟩

/-- A step of a `run` that the invariant allows: what it writes continues what was written, and
    while it is live it waits where that says. -/
theorem Good.act (h : Good c) {phase : Phase} {channels : Table Entry.id} {frames : List Frame}
    (hrows : channels.rows.Sublist c.channels.rows)
    (hkept : ∀ entry ∈ c.channels.rows, entry.channel ≠ t → entry ∈ channels.rows)
    (hover : phase ≠ .settled → run.aborted = false → ∃ entry ∈ channels.rows, entry.channel = t)
    (hstory : c.closed = false → Story run.id (framesOf t c ++ frames))
    (htold : c.closed = false → (∃ entry ∈ channels.rows, entry.channel = t) →
      Told run.id (framesOf t c ++ frames) phase) (sink : Sink) :
    Good ({ c.setPhase t phase with channels }.write sink (some t) frames) := by
  have hsound := h.toSound.setPhase hrun hrows hkept hover
  have hlt : t < (c.setPhase t phase).runs.length := by
    obtain ⟨hlt, -⟩ := List.getElem?_eq_some_iff.mp hrun
    simpa [Connection.setPhase, Connection.updateRuns] using hlt
  cases hclosed : c.closed with
  | true =>
    have hsame : { c.setPhase t phase with channels }.closed = true := hclosed
    unfold Connection.write
    rw [if_pos hsame]
    exact hsound.of_closed hsame
  | false =>
    have hopen : { c.setPhase t phase with channels }.closed = false := hclosed
    have hwrote : Sound { { c.setPhase t phase with channels } with
        sent := { c.setPhase t phase with channels }.sent ++
          frames.map (fun frame => (some t, frame)) } := by
      apply hsound.wrote hlt
      intro now hnow
      obtain ⟨old, hold, hid, -, -, hown⟩ := run_of_setPhase hrun hnow
      obtain ⟨rfl, -⟩ := hown rfl
      rw [hid]
      exact hstory hclosed
    have htaken : Good { { c.setPhase t phase with channels } with
        sent := { c.setPhase t phase with channels }.sent ++
          frames.map (fun frame => (some t, frame)) } := by
      refine ⟨hwrote, ?_⟩
      intro other now hnow hlive
      obtain ⟨old, hold, hid, -, hrest, hown⟩ := run_of_setPhase hrun hnow
      obtain ⟨-, entry, hentry, hchannel⟩ := hlive
      rw [framesOf_append]
      by_cases heq : other = t
      · obtain ⟨rfl, hphase⟩ := hown heq
        subst heq
        rw [if_pos rfl, hid, hphase]
        exact htold hclosed ⟨entry, hentry, hchannel⟩
      · rw [if_neg (fun hsame => heq (Option.some.inj hsame).symm), List.append_nil, hid, hrest heq]
        exact h.told other old hold ⟨hclosed, entry, hrows.subset hentry, hchannel⟩
    unfold Connection.write
    rw [if_neg (by rw [hopen]; decide)]
    cases sink with
    | taken => exact htaken
    | full => exact hwrote.shutdown
    | refused => exact hsound.shutdown

/-- A step of a `run` that writes nothing. -/
theorem Good.act_silent (h : Good c) {phase : Phase}
    (hover : phase ≠ .settled → run.aborted = false → ∃ entry ∈ c.channels.rows, entry.channel = t)
    (htold : Live t c → Told run.id (framesOf t c) phase) : Good (c.setPhase t phase) := by
  have hact : Good ({ c.setPhase t phase with channels := c.channels }.write .taken (some t) []) := by
    refine h.act hrun (List.Sublist.refl _) (fun _ hentry _ => hentry) hover ?_ ?_ .taken
    · intro _
      simpa using h.story t run hrun
    · intro hopen hlive
      simpa using htold ⟨hopen, hlive⟩
  have hsame : ({ c.setPhase t phase with channels := c.channels }.write .taken (some t) []) =
      c.setPhase t phase := by
    simp [Connection.write, Connection.setPhase, Connection.updateRuns]
  rw [hsame] at hact
  exact hact

theorem Good.finish (h : Good c) (sink : Sink) (status : Nat) :
    Good (finish c sink t run.id status) := by
  unfold MuxConnection.finish
  dsimp only
  split
  · rename_i hcurrent
    refine h.act hrun List.filter_sublist ?_ (fun hphase => absurd rfl hphase) ?_ ?_ sink
    · intro entry hentry hother
      refine Table.mem_delete.mpr ⟨hentry, ?_⟩
      intro hid
      have hget : c.channels.get? run.id = some entry := Table.get?_eq_some.mpr ⟨hentry, hid⟩
      unfold current at hcurrent
      change (c.channels.get? run.id).any _ = true at hcurrent
      rw [hget] at hcurrent
      exact hother (by simpa using hcurrent)
    · intro hopen
      exact (h.told t run hrun (live_of_current hopen hcurrent)).ended status
    · rintro - ⟨entry, hentry, hchannel⟩
      obtain ⟨hmem, hid⟩ := Table.mem_delete.mp hentry
      exact absurd (h.named.current hrun hmem hchannel).1 hid
  · rename_i hcurrent
    refine h.act_silent hrun (fun hphase => absurd rfl hphase) ?_
    rintro ⟨-, entry, hentry, hchannel⟩
    exact absurd (h.named.current hrun hentry hchannel).2 hcurrent

theorem Good.runOpened (h : Good c) (sink : Sink) (answer : Option Response) :
    Good (runOpened c sink t answer) := by
  unfold MuxConnection.runOpened
  rw [hrun]
  split
  · rename_i id lastEventId aborted heq
    cases heq
    split
    · exact h.finish hrun sink _
    · split
      · exact h.finish hrun sink _
      · split_ifs with hcurrent
        · exact h.finish hrun sink _
        · exact h.finish hrun sink _
        · have hcurrent : current c id t = true := by simpa using hcurrent
          obtain ⟨entry, hget, hchannel⟩ := (Option.any_eq_true ..).mp hcurrent
          have hentry := (Table.get?_eq_some.mp hget).1
          have hopened : c.closed = false → framesOf t c = [] := fun hopen =>
            h.told t _ hrun (live_of_current hopen hcurrent)
          refine h.act hrun (List.Sublist.refl _) (fun _ hmem _ => hmem) ?_ ?_ ?_ sink
          · exact fun _ _ => ⟨entry, hentry, by simpa using hchannel⟩
          · intro hopen
            rw [hopened hopen]
            exact .streaming []
          · intro hopen _
            rw [hopened hopen]
            exact ⟨[], rfl⟩
  · exact h

theorem Good.runRead (h : Good c) (sink : Sink) (read : Read) :
    Good (runRead c sink t read) := by
  unfold MuxConnection.runRead
  rw [hrun]
  split
  · rename_i id lastEventId parser aborted heq
    cases heq
    split
    · exact h.finish hrun sink _
    · exact h.finish hrun sink _
    · split_ifs with hcurrent
      · exact h.finish hrun sink _
      · have hcurrent : current c id t = true := by simpa using hcurrent
        obtain ⟨entry, hget, hchannel⟩ := (Option.any_eq_true ..).mp hcurrent
        have hentry := (Table.get?_eq_some.mp hget).1
        have hstreamed : c.closed = false → ∃ events : List SseEvent,
            framesOf t c = .up id :: events.map (.event id) := fun hopen =>
          h.told t _ hrun (live_of_current hopen hcurrent)
        have hnamed : ∃ entry ∈ c.channels.rows, entry.channel = t :=
          ⟨entry, hentry, by simpa using hchannel⟩
        dsimp only
        split
        · refine h.act_silent hrun (fun _ _ => hnamed) ?_
          exact fun hlive => hstreamed hlive.1
        · rename_i hevents
          refine h.act hrun (List.Sublist.refl _) (fun _ hmem _ => hmem) (fun _ _ => hnamed) ?_ ?_
            sink
          · intro hopen
            obtain ⟨before, hbefore⟩ := hstreamed hopen
            rw [hbefore, List.cons_append, ← List.map_append]
            exact .streaming _
          · intro hopen _
            obtain ⟨before, hbefore⟩ := hstreamed hopen
            rw [hbefore, List.cons_append, ← List.map_append]
            exact ⟨_, rfl⟩
  · exact h

end Act

/-! ### Every step -/

theorem Good.openChannel {c : Connection} (h : Good c) {id : Text}
    (hfresh : ∀ entry ∈ c.channels.rows, entry.id ≠ id)
    (hroom : c.channels.rows.length < MUX_MAX_CHANNELS) (outcome : Outcome) (lastEventId : Text) :
    Good (openChannel c outcome id lastEventId) := by
  have hrows : (c.channels.set { id, channel := c.runs.length }).rows =
      c.channels.rows ++ [{ id, channel := c.runs.length }] := Table.rows_set_of_fresh hfresh
  have hnew : (c.runs ++ [({ id, lastEventId, phase := .opening, aborted := false } : Run)])[
      c.runs.length]? = some { id, lastEventId, phase := .opening, aborted := false } := by
    simp
  have hold : ∀ t run, (c.runs ++
      [({ id, lastEventId, phase := .opening, aborted := false } : Run)])[t]? = some run →
      c.runs[t]? = some run ∨ t = c.runs.length ∧ run.id = id ∧ run.phase = .opening := by
    intro t run hrun
    rw [List.getElem?_append] at hrun
    split at hrun
    · exact Or.inl hrun
    · rename_i hge
      obtain ⟨hlt, hget⟩ := List.getElem?_eq_some_iff.mp hrun
      have hzero : t - c.runs.length = 0 := by simpa using hlt
      refine Or.inr ⟨by omega, ?_⟩
      subst hget
      simp
  have hunheard : framesOf c.runs.length c = [] := by
    unfold framesOf
    rw [List.map_eq_nil_iff, List.filter_eq_nil_iff]
    intro frame hframe hwriter
    have hlt := h.writers frame hframe c.runs.length (by simpa using hwriter)
    omega
  have hadded : Good { c with
      channels := c.channels.set { id, channel := c.runs.length }
      runs := c.runs ++ [{ id, lastEventId, phase := .opening, aborted := false }] } := by
    refine ⟨⟨?_, ?_, ?_, ?_, ?_⟩, ?_⟩
    · intro entry hentry
      rcases Table.mem_set.mp hentry with rfl | ⟨hmem, -⟩
      · exact ⟨_, hnew, rfl⟩
      · obtain ⟨run, hrun, hid⟩ := h.named entry hmem
        obtain ⟨hlt, -⟩ := List.getElem?_eq_some_iff.mp hrun
        exact ⟨run, (List.getElem?_append_left hlt).trans hrun, hid⟩
    · dsimp only
      rw [hrows, List.length_append]
      exact hroom
    · intro frame hframe t ht
      have hlt := h.writers frame hframe t ht
      simp only [List.length_append]
      omega
    · intro t run hrun
      rcases hold t run hrun with hearlier | ⟨rfl, -, -⟩
      · exact h.story t run hearlier
      · exact hunheard ▸ .silent
    · intro t run hrun hphase haborted
      rcases hold t run hrun with hearlier | ⟨rfl, -, -⟩
      · obtain ⟨entry, hentry, hchannel⟩ := h.released t run hearlier hphase haborted
        exact ⟨entry, Table.mem_set.mpr (Or.inr ⟨hentry, hfresh entry hentry⟩), hchannel⟩
      · exact ⟨_, Table.mem_set.mpr (Or.inl rfl), rfl⟩
    · intro t run hrun hlive
      obtain ⟨hopen, entry, hentry, hchannel⟩ := hlive
      rcases hold t run hrun with hearlier | ⟨rfl, -, hphase⟩
      · rcases Table.mem_set.mp hentry with rfl | ⟨hmem, -⟩
        · obtain ⟨hlt, -⟩ := List.getElem?_eq_some_iff.mp hearlier
          exact absurd hchannel hlt.ne'
        · exact h.told t run hearlier ⟨hopen, entry, hmem, hchannel⟩
      · rw [hphase]
        exact hunheard
  unfold MuxConnection.openChannel
  dsimp only
  split
  · exact hadded.finish hnew _ _
  · exact hadded

theorem dropPrevious_fresh (c : Connection) (id : Text) :
    ∀ entry ∈ (dropPrevious c id).channels.rows, entry.id ≠ id := by
  unfold dropPrevious
  split
  · rename_i hnone
    exact Table.get?_eq_none.mp hnone
  · intro entry hentry
    exact (Table.mem_delete.mp hentry).2

section Ops

variable (parseUrl : Text → Option Url) (base : Url)

theorem Good.applyMuxOp {c : Connection} (h : Good c) (call : MuxOp × Outcome) :
    Good (applyMuxOp parseUrl base c call) := by
  have hdropped := h.dropPrevious call.1.id
  unfold MuxConnection.applyMuxOp
  dsimp only
  split
  · exact hdropped
  · rename_i id url lastEventId hop
    have hid : call.1.id = id := by rw [hop]; rfl
    split_ifs with hrefused hfull
    · exact hdropped.write _ _
    · exact hdropped.write _ _
    · refine hdropped.openChannel ?_ (by omega) _ _
      rw [← hid]
      exact dropPrevious_fresh c call.1.id

theorem Good.applyOps {c : Connection} (h : Good c) (ops : List (MuxOp × Outcome)) :
    Good (applyOps parseUrl base c ops) := by
  induction ops generalizing c with
  | nil => exact h
  | cons call ops ih => exact ih (h.applyMuxOp parseUrl base call)

theorem Good.step {c : Connection} (h : Good c) (s : Step) :
    Good (step parseUrl base c s).1 := by
  cases s with
  | ops ops =>
    simp only [MuxConnection.step, applyMuxOps]
    split
    · exact h
    · exact h.applyOps parseUrl base ops
  | opened t answer sink =>
    cases hrun : c.runs[t]? with
    | none =>
      simp only [MuxConnection.step, MuxConnection.runOpened, hrun]
      exact h
    | some run => exact h.runOpened hrun sink answer
  | read t read sink =>
    cases hrun : c.runs[t]? with
    | none =>
      simp only [MuxConnection.step, MuxConnection.runRead, hrun]
      exact h
    | some run => exact h.runRead hrun sink read
  | ping sink => exact h.write sink _
  | leave => exact h.shutdown

theorem good_openMuxConnection (aborted : Bool) (sink : Sink) :
    Good (openMuxConnection aborted sink) := by
  have hempty : Good { channels := Table.empty, runs := [], closed := false, sent := [] } := by
    refine ⟨⟨?_, Nat.zero_le _, ?_, ?_, ?_⟩, ?_⟩
    · intro entry hentry
      cases hentry
    · intro frame hframe
      cases hframe
    · intro t run hrun
      cases hrun
    · intro t run hrun
      cases hrun
    · intro t run hrun
      cases hrun
  unfold openMuxConnection
  dsimp only
  split
  · exact hempty.shutdown
  · exact hempty.write sink _

theorem good_after (aborted : Bool) (sink : Sink) (steps : List Step) :
    Good (after (step parseUrl base) (openMuxConnection aborted sink) steps) :=
  after_invariant (fun _ s h => h.step parseUrl base s) (good_openMuxConnection aborted sink) steps

/-- An operation takes the channel object that its id names out of the live ones. -/
theorem not_live_dropPrevious {c : Connection} (h : Named c) {id : Text} {entry : Entry}
    (hentry : c.channels.get? id = some entry) : ¬Live entry.channel (dropPrevious c id) := by
  rintro ⟨-, other, hother, hchannel⟩
  unfold dropPrevious at hother
  rw [hentry] at hother
  obtain ⟨hmem, hid⟩ := Table.mem_delete.mp hother
  obtain ⟨hfound, hkey⟩ := Table.get?_eq_some.mp hentry
  obtain ⟨run, hrun, hrunid⟩ := h entry hfound
  have hsame := (h.current hrun hmem hchannel).1
  exact hid (hsame.trans (hrunid.trans hkey))

/-- What an operation takes off is not heard any more. -/
theorem not_live_applyMuxOp {c : Connection} (h : Named c) {call : MuxOp × Outcome} {entry : Entry}
    (hentry : c.channels.get? call.1.id = some entry) :
    entry.channel < c.runs.length ∧ ¬Live entry.channel (applyMuxOp parseUrl base c call) := by
  obtain ⟨run, hrun, -⟩ := h entry (Table.get?_eq_some.mp hentry).1
  obtain ⟨hlt, -⟩ := List.getElem?_eq_some_iff.mp hrun
  have hrest := quiet_afterDrop parseUrl base hlt call
  exact ⟨hlt, fun hlive => not_live_dropPrevious h hentry (hrest.live hlive)⟩

/-- The connection after `steps`. -/
def reached (aborted : Bool) (sink : Sink) (steps : List Step) : Connection :=
  after (step parseUrl base) (openMuxConnection aborted sink) steps

/-- At any moment of a request that a connection takes, the channel object that the next
    operation closes or replaces is not heard after it, whatever follows. -/
theorem replaced_silent {c : Connection} (h : Good c) (hopen : c.closed = false)
    (front back : List (MuxOp × Outcome)) (call : MuxOp × Outcome) (later : List Step)
    {entry : Entry}
    (hentry : (applyOps parseUrl base c front).channels.get? call.1.id = some entry) :
    framesOf entry.channel
        (after (step parseUrl base) (step parseUrl base c (.ops (front ++ call :: back))).1 later) =
      framesOf entry.channel (applyOps parseUrl base c front) := by
  have hstep : (step parseUrl base c (.ops (front ++ call :: back))).1 =
      applyOps parseUrl base
        (applyMuxOp parseUrl base (applyOps parseUrl base c front) call) back := by
    simp [step, applyMuxOps, hopen, applyOps]
  have hmid := h.applyOps parseUrl base front
  obtain ⟨hlt, hlive⟩ := not_live_applyMuxOp parseUrl base hmid.named hentry
  have hcall := quiet_applyMuxOp parseUrl base hlt call
  have hback := quiet_applyOps parseUrl base (hlt.trans_le hcall.runs) back
  have hbatch := hcall.trans hback
  have hlater := quiet_after parseUrl base (hlt.trans_le hbatch.runs)
    (fun hafter => hlive (hback.live hafter)) later
  rw [hstep]
  exact (hbatch.trans hlater).frames

/-- The steps of a `run` whose id names another channel object, or none. -/
theorem stale_step {c : Connection} {t : Nat} {run : Run} (hrun : c.runs[t]? = some run)
    (hstale : current c run.id t = false) (s : Step)
    (hown : (∃ answer sink, s = .opened t answer sink) ∨ ∃ read sink, s = .read t read sink) :
    (step parseUrl base c s).1.channels = c.channels ∧
      (step parseUrl base c s).1.sent = c.sent := by
  have hfinish : ∀ sink status, (finish c sink t run.id status).channels = c.channels ∧
      (finish c sink t run.id status).sent = c.sent := by
    intro sink status
    have hphase : current (c.setPhase t .settled) run.id t = false := hstale
    unfold finish
    dsimp only
    rw [if_neg (by rw [hphase]; decide)]
    exact ⟨rfl, rfl⟩
  rcases hown with ⟨answer, sink, rfl⟩ | ⟨read, sink, rfl⟩
  · simp only [step, runOpened, hrun]
    split
    · rename_i heq
      cases heq
      split
      · exact hfinish sink _
      · split
        · exact hfinish sink _
        · rw [if_pos (by rw [hstale]; decide)]
          exact hfinish sink _
    · exact ⟨rfl, rfl⟩
  · simp only [step, runRead, hrun]
    split
    · rename_i heq
      cases heq
      split
      · exact hfinish sink _
      · exact hfinish sink _
      · rw [if_pos (by rw [hstale]; decide)]
        exact hfinish sink _
    · exact ⟨rfl, rfl⟩

/-- In every run of a connection at most `MUX_MAX_CHANNELS` channels are open, also between two
    operations of a request; what the `run` of each channel object wrote is an `up`, then
    events, then an `end`, or less; one that an operation closed or replaced writes nothing
    after it; and the `run` of one that its id does not name takes no entry off. -/
theorem channel_incarnations (aborted : Bool) (sink : Sink) (steps : List Step) :
    (reached parseUrl base aborted sink steps).channels.rows.length ≤ MUX_MAX_CHANNELS ∧
    (∀ t run, (reached parseUrl base aborted sink steps).runs[t]? = some run →
      Story run.id (framesOf t (reached parseUrl base aborted sink steps))) ∧
    ((reached parseUrl base aborted sink steps).closed = false →
      ∀ front call back,
        (applyOps parseUrl base (reached parseUrl base aborted sink steps) front).channels.rows.length
          ≤ MUX_MAX_CHANNELS ∧
        ∀ entry, (applyOps parseUrl base (reached parseUrl base aborted sink steps)
            front).channels.get? call.1.id = some entry →
          ∀ later, framesOf entry.channel
              (reached parseUrl base aborted sink
                (steps ++ .ops (front ++ call :: back) :: later)) =
            framesOf entry.channel
              (applyOps parseUrl base (reached parseUrl base aborted sink steps) front)) ∧
    ∀ t run, (reached parseUrl base aborted sink steps).runs[t]? = some run →
      current (reached parseUrl base aborted sink steps) run.id t = false →
      ∀ s, ((∃ answer sink, s = .opened t answer sink) ∨ ∃ read sink, s = .read t read sink) →
        (reached parseUrl base aborted sink (steps ++ [s])).channels =
          (reached parseUrl base aborted sink steps).channels := by
  have hgood := good_after parseUrl base aborted sink steps
  refine ⟨hgood.limit, hgood.story, ?_, ?_⟩
  · intro hopen front call back
    refine ⟨(hgood.applyOps parseUrl base front).limit, ?_⟩
    intro entry hentry later
    have hsilent := replaced_silent parseUrl base hgood hopen front back call later hentry
    unfold reached
    rw [after_append]
    exact hsilent
  · intro t run hrun hstale s hown
    have hkept := (stale_step parseUrl base hrun hstale s hown).1
    unfold reached
    rw [after_concat]
    exact hkept

end Ops

/-- Every URL is one of the logs. -/
def logsUrl (_ : Text) : Option Url :=
  some { origin := units "http://127.0.0.1", pathname := units "/api/logs/stream" }

def openLogs : MuxOp × Outcome :=
  (.opens (units "1") (units "/api/logs/stream") none, { sink := .taken, throws := false })

def streamResponse : Response :=
  { ok := true, status := 200, eventStream := true, body := some false }

/-- A channel is opened again while its first reader waits: what that reader gets then is not
    written. -/
theorem channel_incarnations_reopened : ∀ late : Text,
    framesOf 0 (reached logsUrl { origin := units "http://127.0.0.1", pathname := [] } false .taken
      ([.ops [openLogs], .opened 0 (some streamResponse) .taken] ++
        .ops ([] ++ openLogs :: []) :: [.read 0 (.value late) .taken])) = [.up (units "1")] := by
  intro late
  have hsilent := ((channel_incarnations logsUrl
    { origin := units "http://127.0.0.1", pathname := [] } false .taken
    [.ops [openLogs], .opened 0 (some streamResponse) .taken]).2.2.1 (by decide) [] openLogs
      []).2 { id := units "1", channel := 0 } (by decide)
      [.read 0 (.value late) .taken]
  rw [hsilent]
  decide

end Delegatus.MuxConnection
