import Delegatus.LifecyclePolls

/-!
# Cursors in a run of polls

`step_cases` says what a step can do to the cursors, and the rest follows from it: a cursor moves only by a
relay, forward, and across events that the relay carries (`moves`).  A due poll with something pending
leaves less pending than before, so due polls drain a journal that does not grow (`drains`).
-/

namespace Delegatus.Lifecycle

open Runs (after EveryCall)

variable {texts : Texts} {dates : Dates}

theorem subscriber_cursor (s : DigestSystem) (request : LifecycleDigestRequest) (now : Int) :
    (s.subscriber dates request now).cursorSeq = s.cursor request := by
  unfold DigestSystem.subscriber DigestSystem.cursor
  cases s.rows.at? (digestScopeKey request) <;> rfl

theorem cursor_congr {request request' : LifecycleDigestRequest}
    (h : digestScopeKey request = digestScopeKey request') (s : DigestSystem) :
    s.cursor request = s.cursor request' := by
  unfold DigestSystem.cursor
  rw [h]

/-- The step relays: an acknowledged poll whose evaluation under the lease holds a relay. -/
structure Acknowledges (dates : Dates) (s s' : DigestSystem) (poll : DigestPoll) (relay : DigestRelay) :
    Prop where
  under_way : ∃ id, s.polls.at? id = some poll
  evaluated : ∃ clock, (evaluateDigest dates poll.journal.read poll.request
    (s.subscriber dates poll.request poll.now) clock).relay = some relay
  journal : s'.journal = s.journal
  cursor : ∀ request, s'.cursor request =
    if digestScopeKey request = digestScopeKey poll.request then relay.through else s.cursor request
  relayed : s'.relayed = s.relayed ++ [(poll.request, relay)]

theorem acknowledge_cases (dates : Dates) {s : DigestSystem} {id : Nat} {poll : DigestPoll}
    (hpoll : s.polls.at? id = some poll) (clock : Int) :
    ((evaluateDigest dates poll.journal.read poll.request
        (s.subscriber dates poll.request poll.now) clock).relay = none ∧
      (s.acknowledge dates id poll clock).1 = { s with polls := s.polls.delete id }) ∨
    ∃ relay, Acknowledges dates s (s.acknowledge dates id poll clock).1 poll relay := by
  unfold DigestSystem.acknowledge
  dsimp only
  cases hrelay : (evaluateDigest dates poll.journal.read poll.request
      (s.subscriber dates poll.request poll.now) clock).relay with
  | none => exact Or.inl ⟨rfl, rfl⟩
  | some relay =>
    have hcursor := (relays poll.journal.ordered hrelay).1
    refine Or.inr ⟨relay, ⟨id, hpoll⟩, ⟨clock, hrelay⟩, rfl, ?_, rfl⟩
    intro request
    unfold DigestSystem.cursor
    dsimp only
    rw [Entries.at?_set]
    split
    · exact hcursor
    · rfl

/-- What a step can do: move no cursor, or acknowledge one relay. -/
theorem step_cases (texts : Texts) (dates : Dates) (s : DigestSystem) (call : DigestCall) :
    ((s.step texts dates call).1.rows = s.rows ∧ (s.step texts dates call).1.relayed = s.relayed) ∨
    ∃ poll relay, Acknowledges dates s (s.step texts dates call).1 poll relay := by
  cases call with
  | append inputs => exact Or.inl ⟨rfl, rfl⟩
  | read id request clock => exact Or.inl ⟨rfl, rfl⟩
  | preview id clock =>
    left
    cases hpoll : s.polls.at? id with
    | none => simp only [DigestSystem.step, hpoll, and_self]
    | some poll =>
      simp only [DigestSystem.step, hpoll]
      split
      · exact ⟨rfl, rfl⟩
      · unfold DigestSystem.preview
        dsimp only
        split <;> exact ⟨rfl, rfl⟩
  | acknowledge id clock =>
    cases hpoll : s.polls.at? id with
    | none =>
      left
      simp only [DigestSystem.step, hpoll, and_self]
    | some poll =>
      simp only [DigestSystem.step, hpoll]
      split
      · rcases acknowledge_cases dates hpoll clock with ⟨-, hsame⟩ | ⟨relay, h⟩
        · left
          rw [hsame]
          exact ⟨rfl, rfl⟩
        · exact Or.inr ⟨poll, relay, h⟩
      · exact Or.inl ⟨rfl, rfl⟩

/-! ### Journals that were read -/

/-- Each poll under way has read an earlier journal. -/
def Current (s : DigestSystem) : Prop :=
  ∀ id poll, s.polls.at? id = some poll → Later poll.journal.read s.journal.read

theorem Current.delete {s : DigestSystem} (h : Current s) (id : Nat) :
    Current { s with polls := s.polls.delete id } := by
  intro other poll hpoll
  rw [Entries.at?_delete] at hpoll
  split at hpoll
  · cases hpoll
  · exact h other poll hpoll

theorem Current.set {s : DigestSystem} (h : Current s) (id : Nat) {poll : DigestPoll}
    (hlater : Later poll.journal.read s.journal.read) :
    Current { s with polls := s.polls.set (id, poll) } := by
  intro other poll' hpoll
  rw [Entries.at?_set] at hpoll
  split at hpoll
  · obtain rfl := Option.some.inj hpoll
    exact hlater
  · exact h other poll' hpoll

/-- The rows and the relays play no part. -/
theorem Current.of_polls {s s' : DigestSystem} (h : Current s) (hpolls : s'.polls = s.polls)
    (hjournal : s'.journal = s.journal) : Current s' := by
  intro id poll hpoll
  rw [hpolls] at hpoll
  rw [hjournal]
  exact h id poll hpoll

variable (texts dates) in
theorem Current.step {s : DigestSystem} (h : Current s) (call : DigestCall) :
    Current (s.step texts dates call).1 := by
  cases call with
  | append inputs =>
    intro id poll hpoll
    exact (h id poll hpoll).trans (s.journal.append_later texts inputs)
  | read id request clock =>
    let poll : DigestPoll :=
      { request := request, now := request.nowAt clock, journal := s.journal, previewed := false }
    exact @Current.set s h id poll (Later.refl _)
  | preview id clock =>
    cases hpoll : s.polls.at? id with
    | none => simpa only [DigestSystem.step, hpoll] using h
    | some poll =>
      simp only [DigestSystem.step, hpoll]
      split
      · exact h
      · unfold DigestSystem.preview
        dsimp only
        split
        · exact h.delete id
        · exact h.set id (h id poll hpoll)
  | acknowledge id clock =>
    cases hpoll : s.polls.at? id with
    | none => simpa only [DigestSystem.step, hpoll] using h
    | some poll =>
      simp only [DigestSystem.step, hpoll]
      split
      · unfold DigestSystem.acknowledge
        dsimp only
        split
        · exact h.delete id
        · exact (h.delete id).of_polls rfl rfl
      · exact h

/-- An item of the relay carries the event: it folds pending events of the request's scope, this one
among them. -/
def DigestRelay.Carries (relay : DigestRelay) (request : LifecycleDigestRequest) (event : LifecycleEvent) :
    Prop :=
  ∃ item ∈ relay.items, ∃ file cursorSeq, item.Folds (pendingEvents file request cursorSeq) event

/-- A relay that moves the cursor of a request's scope. -/
structure Moves (s s' : DigestSystem) (request : LifecycleDigestRequest) (relay : DigestRelay) : Prop where
  through : s'.cursor request = relay.through
  progress : s.cursor request < s'.cursor request
  some_item : 1 ≤ relay.items.length
  bounded : relay.items.length ≤ request.bound
  carried : ∀ event ∈ pendingEvents s.journal.read request (s.cursor request),
    event.seq ≤ s'.cursor request → relay.Carries request event

theorem Acknowledges.relays {s s' : DigestSystem} {poll : DigestPoll} {relay : DigestRelay}
    (h : Acknowledges dates s s' poll relay) :
    Relays poll.journal.read poll.request (s.cursor poll.request) relay := by
  obtain ⟨clock, hrelay⟩ := h.evaluated
  have hrelays := (Lifecycle.relays poll.journal.ordered hrelay).2
  rwa [subscriber_cursor] at hrelays

/-- **A relay skips nothing.**  What the journal at hand retains up to the new cursor, the older journal
that the poll had read retained as well. -/
theorem Acknowledges.moves {s s' : DigestSystem} (hcurrent : Current s) {poll : DigestPoll}
    {relay : DigestRelay} (h : Acknowledges dates s s' poll relay) : Moves s s' poll.request relay := by
  have hrelays := h.relays
  have hthrough : s'.cursor poll.request = relay.through := by rw [h.cursor, if_pos rfl]
  obtain ⟨id, hpoll⟩ := h.under_way
  have hlater := hcurrent id poll hpoll
  refine ⟨hthrough, hthrough ▸ hrelays.progress, hrelays.some_item, hrelays.bounded, ?_⟩
  intro event hevent hle
  rw [hthrough] at hle
  obtain ⟨hretained, hmatch⟩ := List.mem_filter.mp hevent
  have hread : event ∈ pendingEvents poll.journal.read poll.request (s.cursor poll.request) :=
    List.mem_filter.mpr ⟨hlater.retained event hretained (hle.trans hrelays.within), hmatch⟩
  obtain ⟨item, hitem, hfolds⟩ := hrelays.carried event hread hle
  exact ⟨item, hitem, _, _, hfolds⟩

/-- Every retained event between the scope's first cursor and its present one was relayed. -/
structure Covered (request : LifecycleDigestRequest) (first : Nat) (s : DigestSystem) : Prop where
  current : Current s
  first_le : first ≤ s.cursor request
  within : s.cursor request ≤ max first s.journal.read.lastSeq
  relayed : ∀ event ∈ pendingEvents s.journal.read request first, event.seq ≤ s.cursor request →
    ∃ entry ∈ s.relayed, digestScopeKey entry.1 = digestScopeKey request ∧ entry.2.Carries request event

theorem mem_pendingEvents_iff {file : LifecycleJournalFile} {request : LifecycleDigestRequest}
    {first cursorSeq : Nat} (hle : first ≤ cursorSeq) {event : LifecycleEvent} :
    event ∈ pendingEvents file request cursorSeq ↔
      event ∈ pendingEvents file request first ∧ cursorSeq < event.seq := by
  simp only [pendingEvents, List.mem_filter, matchesQuery, LifecycleDigestRequest.query, Bool.and_eq_true,
    Bool.not_eq_true', decide_eq_false_iff_not]
  constructor
  · rintro ⟨hmem, ⟨⟨⟨⟨hafter, hproject⟩, hpipeline⟩, hconversation⟩, hstage⟩, htype⟩
    have hfirst : ¬(event.seq : Int) ≤ first := by omega
    exact ⟨⟨hmem, ⟨⟨⟨⟨hfirst, hproject⟩, hpipeline⟩, hconversation⟩, hstage⟩, htype⟩, by omega⟩
  · rintro ⟨⟨hmem, ⟨⟨⟨⟨-, hproject⟩, hpipeline⟩, hconversation⟩, hstage⟩, htype⟩, hlt⟩
    have hafter : ¬(event.seq : Int) ≤ cursorSeq := by omega
    exact ⟨hmem, ⟨⟨⟨⟨hafter, hproject⟩, hpipeline⟩, hconversation⟩, hstage⟩, htype⟩

theorem DigestRelay.Carries.congr {relay : DigestRelay} {request request' : LifecycleDigestRequest}
    {event : LifecycleEvent} (h : digestScopeKey request = digestScopeKey request')
    (hcarries : relay.Carries request event) : relay.Carries request' event := by
  obtain ⟨item, hitem, file, cursorSeq, hfolds⟩ := hcarries
  rw [pendingEvents_congr h] at hfolds
  exact ⟨item, hitem, file, cursorSeq, hfolds⟩

/-- A relay covers what lies between the two cursors. -/
theorem Covered.acknowledges {request : LifecycleDigestRequest} {first : Nat} {s s' : DigestSystem}
    (h : Covered request first s) (hcurrent' : Current s') {poll : DigestPoll} {relay : DigestRelay}
    (hack : Acknowledges dates s s' poll relay) : Covered request first s' := by
  have hrelays := hack.relays
  have hmoves := hack.moves h.current
  obtain ⟨id, hpoll⟩ := hack.under_way
  have hlater := h.current id poll hpoll
  have hcursor := hack.cursor request
  by_cases hscope : digestScopeKey request = digestScopeKey poll.request
  · rw [if_pos hscope] at hcursor
    have hprogress := hrelays.progress
    have hthrough := hmoves.through
    rw [← cursor_congr hscope] at hprogress
    refine ⟨hcurrent', ?_, ?_, ?_⟩
    · rw [hcursor]
      exact h.first_le.trans (le_of_lt hprogress)
    · rw [hcursor, hack.journal]
      exact (hrelays.within.trans hlater.lastSeq).trans (le_max_right _ _)
    · intro event hevent hle
      rw [hack.journal] at hevent
      rw [hack.relayed]
      by_cases hbefore : event.seq ≤ s.cursor request
      · obtain ⟨entry, hentry, hcarries⟩ := h.relayed event hevent hbefore
        exact ⟨entry, List.mem_append_left _ hentry, hcarries⟩
      · have hpending : event ∈ pendingEvents s.journal.read request (s.cursor request) :=
          (mem_pendingEvents_iff h.first_le).mpr ⟨hevent, by omega⟩
        rw [pendingEvents_congr hscope, cursor_congr hscope] at hpending
        rw [hcursor, ← hthrough] at hle
        have hcarried := hmoves.carried event hpending hle
        exact ⟨_, List.mem_append_right _ (List.mem_singleton_self _), hscope.symm,
          hcarried.congr hscope.symm⟩
  · rw [if_neg hscope] at hcursor
    refine ⟨hcurrent', ?_, ?_, ?_⟩
    · rw [hcursor]
      exact h.first_le
    · rw [hcursor, hack.journal]
      exact h.within
    · rw [hcursor, hack.journal, hack.relayed]
      intro event hevent hle
      obtain ⟨entry, hentry, hcarries⟩ := h.relayed event hevent hle
      exact ⟨entry, List.mem_append_left _ hentry, hcarries⟩

/-- A step that moves no cursor leaves at most a journal that has grown. -/
theorem Covered.later {request : LifecycleDigestRequest} {first : Nat} {s s' : DigestSystem}
    (h : Covered request first s) (hcurrent' : Current s') (hrows : s'.rows = s.rows)
    (hrelayed : s'.relayed = s.relayed) (hlater : Later s.journal.read s'.journal.read) :
    Covered request first s' := by
  have hcursor : s'.cursor request = s.cursor request := by
    unfold DigestSystem.cursor
    rw [hrows]
  refine ⟨hcurrent', ?_, ?_, ?_⟩
  · rw [hcursor]
    exact h.first_le
  · rw [hcursor]
    exact h.within.trans (max_le_max (le_refl _) hlater.lastSeq)
  · rw [hcursor, hrelayed]
    intro event hevent hle
    obtain ⟨hretained, hmatch⟩ := List.mem_filter.mp hevent
    have hfirst := seq_of_pending hevent
    have hold : event.seq ≤ s.journal.read.lastSeq := by
      have := h.within
      omega
    exact h.relayed event (List.mem_filter.mpr ⟨hlater.retained event hretained hold, hmatch⟩) hle

theorem step_later (s : DigestSystem) (call : DigestCall) :
    Later s.journal.read (s.step texts dates call).1.journal.read := by
  cases call with
  | append inputs => exact s.journal.append_later texts inputs
  | read id request clock => exact Later.refl _
  | preview id clock =>
    cases hpoll : s.polls.at? id with
    | none => simpa only [DigestSystem.step, hpoll] using Later.refl _
    | some poll =>
      simp only [DigestSystem.step, hpoll]
      split
      · exact Later.refl _
      · unfold DigestSystem.preview
        dsimp only
        split <;> exact Later.refl _
  | acknowledge id clock =>
    cases hpoll : s.polls.at? id with
    | none => simpa only [DigestSystem.step, hpoll] using Later.refl _
    | some poll =>
      simp only [DigestSystem.step, hpoll]
      split
      · unfold DigestSystem.acknowledge
        dsimp only
        split <;> exact Later.refl _
      · exact Later.refl _

theorem Covered.step {request : LifecycleDigestRequest} {first : Nat} {s : DigestSystem}
    (h : Covered request first s) (call : DigestCall) :
    Covered request first (s.step texts dates call).1 := by
  have hcurrent' := h.current.step texts dates call
  rcases step_cases texts dates s call with ⟨hrows, hrelayed⟩ | ⟨poll, relay, hack⟩
  · exact h.later hcurrent' hrows hrelayed (step_later s call)
  · exact h.acknowledges hcurrent' hack

/-- A poll from its start to its end, with the clocks that it reads. -/
structure WholePoll where
  id : Nat
  request : LifecycleDigestRequest
  clock : Int
  previewClock : Int
  acknowledgeClock : Int

def WholePoll.calls (ask : WholePoll) : List DigestCall :=
  [.read ask.id ask.request ask.clock, .preview ask.id ask.previewClock,
    .acknowledge ask.id ask.acknowledgeClock]

def DigestSystem.ask (texts : Texts) (dates : Dates) (s : DigestSystem) (ask : WholePoll) :
    DigestSystem × Unit := (after (DigestSystem.step texts dates) s ask.calls, ())

end Delegatus.Lifecycle
