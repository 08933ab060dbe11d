import Delegatus.LifecycleAppends
import Delegatus.LifecycleRelays

/-!
# Polls of the lifecycle journal

A poll reads the journal, evaluates it once without the lease, and then once more under it, where it moves
the subscriber's cursor and hands the relay to its caller.  Other polls and appends run in between, so
the journal that a poll evaluates may be older than the one at hand (`Later`) and its cursor newer than
that of its preview.

`polls_complete`: in every run the cursors only move forward, each relay carries every retained event that
its cursor passes, and polls that are due drain what is pending.
-/

namespace Delegatus.Lifecycle

open Runs (after EveryCall)

/-! ### Scopes -/

theorem toDigits_inj {m n : Nat} (h : Nat.toDigits 10 m = Nat.toDigits 10 n) : m = n := by
  have hvalue := congrArg (fun digits => Nat.ofDigitChars 10 digits 0) h
  simpa using hvalue

theorem charUnits_ne_nil (c : Char) : JsStrings.charUnits c ≠ [] := by
  unfold JsStrings.charUnits
  split <;> simp

/-- A longer text has more code units. -/
theorem eq_nil_of_units {front back : List Char}
    (h : ((front ++ back).flatMap JsStrings.charUnits).length = (front.flatMap JsStrings.charUnits).length) :
    back = [] := by
  cases back with
  | nil => rfl
  | cons c rest =>
    have hpos : 0 < (JsStrings.charUnits c).length := List.length_pos_iff.mpr (charUnits_ne_nil c)
    rw [List.flatMap_append, List.flatMap_cons, List.length_append, List.length_append] at h
    omega

theorem toList_lengthPrefixed (part : String) : (lengthPrefixed part).toList =
    Nat.toDigits 10 (part.toList.flatMap JsStrings.charUnits).length ++ ':' :: part.toList := by
  simp [lengthPrefixed, JsStrings.codeUnits]

/-- The digits before the colon give the length, and the length gives the part. -/
theorem lengthPrefixed_append_inj {part part' : String} {rest rest' : List Char}
    (h : (lengthPrefixed part).toList ++ rest = (lengthPrefixed part').toList ++ rest') :
    part = part' ∧ rest = rest' := by
  have hdigits : ∀ n : Nat, ∀ c ∈ Nat.toDigits 10 n, (c != ':') = true := by
    intro n c hc
    have hdigit := Nat.isDigit_of_mem_toDigits (by decide) (by decide) hc
    rw [bne_iff_ne]
    rintro rfl
    exact absurd hdigit (by decide)
  have hspan : ∀ (n : Nat) (tail : List Char),
      (Nat.toDigits 10 n ++ ':' :: tail).takeWhile (fun c => c != ':') = Nat.toDigits 10 n := by
    intro n tail
    rw [List.takeWhile_append_of_pos (hdigits n), List.takeWhile_cons_of_neg (by simp), List.append_nil]
  rw [toList_lengthPrefixed, toList_lengthPrefixed, List.append_assoc, List.append_assoc,
    List.cons_append, List.cons_append] at h
  have hcount := congrArg (List.takeWhile fun c => c != ':') h
  rw [hspan, hspan] at hcount
  have hlength := toDigits_inj hcount
  rw [hcount] at h
  have htail := (List.cons.inj (List.append_cancel_left h)).2
  have hparts : part.toList = part'.toList := by
    rcases List.append_eq_append_iff.mp htail with ⟨more, hmore, -⟩ | ⟨more, hmore, -⟩
    · rw [hmore] at hlength
      rw [hmore, eq_nil_of_units hlength.symm, List.append_nil]
    · rw [hmore] at hlength
      rw [hmore, eq_nil_of_units hlength, List.append_nil]
  rw [hparts] at htail
  exact ⟨String.toList_injective hparts, List.append_cancel_left htail⟩

/-- **Two scopes never share a row.** -/
theorem digestScopeKey_inj {request request' : LifecycleDigestRequest}
    (h : digestScopeKey request = digestScopeKey request') :
    request.subscriberId = request'.subscriberId ∧
      request.project.getD "" = request'.project.getD "" ∧
      request.pipelineId.getD "" = request'.pipelineId.getD "" ∧
      request.conversationId.getD "" = request'.conversationId.getD "" := by
  have hlist := congrArg String.toList h
  simp only [digestScopeKey, List.map_cons, List.map_nil, String.join_cons, String.join_nil,
    String.toList_append] at hlist
  obtain ⟨hsubscriber, hlist⟩ := lengthPrefixed_append_inj hlist
  obtain ⟨hproject, hlist⟩ := lengthPrefixed_append_inj hlist
  obtain ⟨hpipeline, hlist⟩ := lengthPrefixed_append_inj hlist
  obtain ⟨hconversation, -⟩ := lengthPrefixed_append_inj hlist
  exact ⟨hsubscriber, hproject, hpipeline, hconversation⟩

/-- Requests of one scope have the same pending events. -/
theorem pendingEvents_congr {request request' : LifecycleDigestRequest}
    (h : digestScopeKey request = digestScopeKey request') (file : LifecycleJournalFile) (cursorSeq : Nat) :
    pendingEvents file request cursorSeq = pendingEvents file request' cursorSeq := by
  have hexcludes : ∀ {wanted wanted' : Option String}, wanted.getD "" = wanted'.getD "" →
      excludes wanted = excludes wanted' := by
    intro wanted wanted' hsame
    funext actual
    cases wanted with
    | none =>
      cases wanted' with
      | none => rfl
      | some text =>
        obtain rfl : "" = text := hsame
        simp [excludes, LinkedBoards.truthy]
    | some text =>
      cases wanted' with
      | none =>
        obtain rfl : text = "" := hsame
        simp [excludes, LinkedBoards.truthy]
      | some text' =>
        obtain rfl : text = text' := hsame
        rfl
  obtain ⟨-, hproject, hpipeline, hconversation⟩ := digestScopeKey_inj h
  unfold pendingEvents
  apply List.filter_congr
  intro event _
  simp only [matchesQuery, LifecycleDigestRequest.query, hexcludes hproject, hexcludes hpipeline,
    hexcludes hconversation]

/-! ### Journals that grow -/

/-- A stored journal that reads as an ordered one. -/
structure Journal where
  stored : Option LifecycleJournalFile
  ordered : Ordered (readJournalFile stored)

def Journal.read (journal : Journal) : LifecycleJournalFile := readJournalFile journal.stored

/-- A journal and a later one: what the later one retains of the first one's time was in the first. -/
structure Later (old new : LifecycleJournalFile) : Prop where
  lastSeq : old.lastSeq ≤ new.lastSeq
  retained : ∀ event ∈ new.events, event.seq ≤ old.lastSeq → event ∈ old.events

theorem Later.refl (file : LifecycleJournalFile) : Later file file :=
  ⟨le_refl _, fun _ hevent _ => hevent⟩

theorem Later.trans {first second third : LifecycleJournalFile} (h : Later first second)
    (h' : Later second third) : Later first third :=
  ⟨h.lastSeq.trans h'.lastSeq, fun event hevent hle =>
    h.retained event (h'.retained event hevent (hle.trans h.lastSeq)) hle⟩

theorem trim_events (file : LifecycleJournalFile) : (trimJournal file).events.Sublist file.events := by
  have hsub := (LogTails.rtake_suffix LIFECYCLE_JOURNAL_CAPACITY file.events).sublist
  unfold trimJournal
  split
  · dsimp only
    exact hsub
  · exact List.Sublist.refl _

theorem trim_lastSeq (file : LifecycleJournalFile) : (trimJournal file).lastSeq = file.lastSeq := by
  unfold trimJournal
  split <;> rfl

theorem Ordered.trim {file : LifecycleJournalFile} (h : Ordered file) : Ordered (trimJournal file) := by
  refine ⟨h.increasing.sublist (trim_events file), ?_⟩
  intro event hevent
  rw [trim_lastSeq]
  exact h.bounded event ((trim_events file).subset hevent)

/-- A read of an ordered file gives its events but those beyond the capacity. -/
theorem Ordered.read {file : LifecycleJournalFile} (h : Ordered file) :
    Ordered (readJournalFile (some file)) ∧ (readJournalFile (some file)).lastSeq = file.lastSeq ∧
      (readJournalFile (some file)).events.Sublist file.events := by
  have hsort := sortBySeq_of_increasing h.increasing
  have hhighest : max file.lastSeq ((file.events.getLast?.map (·.seq)).getD 0) = file.lastSeq := by
    apply max_eq_left
    cases hlast : file.events.getLast? with
    | none => simp
    | some event => exact h.bounded event (List.mem_of_getLast? hlast)
  have hevents : (normalizeJournal file).events = file.events := hsort
  have hlast : (normalizeJournal file).lastSeq = file.lastSeq := by
    unfold normalizeJournal
    dsimp only
    rw [hsort, hhighest]
  have hnormal : Ordered (normalizeJournal file) := by
    constructor
    · rw [hevents]
      exact h.increasing
    · rw [hevents, hlast]
      exact h.bounded
  have hread : readJournalFile (some file) = trimJournal (normalizeJournal file) := by
    simp only [readJournalFile]
    rw [sortBySeq_of_increasing hnormal.increasing]
  rw [hread]
  refine ⟨hnormal.trim, ?_, ?_⟩
  · rw [trim_lastSeq, hlast]
  · rw [← hevents]
    exact trim_events _

/-- The file that an append writes. -/
theorem Ordered.offered {texts : Texts} {file : LifecycleJournalFile} (h : Ordered file)
    {inputs : List LifecycleEventInput} {out : Appending} {new : List LifecycleEvent}
    (hoffered : Offered texts (Appending.start texts file) inputs out new) :
    Ordered out.file ∧ Later file out.file := by
  have hevents : out.file.events = file.events ++ new := hoffered.events
  have hlast : out.file.lastSeq = file.lastSeq + new.length := hoffered.lastSeq
  have hseqs : new.map (·.seq) = List.range' (file.lastSeq + 1) new.length := hoffered.seqs
  have hnew : ∀ event ∈ new, file.lastSeq < event.seq ∧ event.seq ≤ file.lastSeq + new.length := by
    intro event hevent
    have hseq : event.seq ∈ new.map (·.seq) := List.mem_map_of_mem hevent
    rw [hseqs, List.mem_range'_1] at hseq
    omega
  refine ⟨⟨?_, ?_⟩, ⟨?_, ?_⟩⟩
  · rw [hevents, List.pairwise_append]
    refine ⟨h.increasing, increasing_of_numbered hseqs, ?_⟩
    intro old hold event hevent
    have hbound := h.bounded old hold
    have := hnew event hevent
    omega
  · intro event hevent
    rw [hevents] at hevent
    rw [hlast]
    rcases List.mem_append.mp hevent with hold | hlater
    · have := h.bounded event hold
      omega
    · exact (hnew event hlater).2
  · rw [hlast]
    omega
  · intro event hevent hle
    rw [hevents] at hevent
    rcases List.mem_append.mp hevent with hold | hlater
    · exact hold
    · have := hnew event hlater
      omega

theorem append_later (texts : Texts) {stored : Option LifecycleJournalFile}
    (h : Ordered (readJournalFile stored)) (inputs : List LifecycleEventInput) :
    Ordered (readJournalFile (appendLifecycleEvents texts stored inputs).1) ∧
      Later (readJournalFile stored) (readJournalFile (appendLifecycleEvents texts stored inputs).1) := by
  unfold appendLifecycleEvents
  split
  · exact ⟨h, Later.refl _⟩
  · unfold appendInTransaction
    dsimp only
    split
    · exact ⟨h, Later.refl _⟩
    · obtain ⟨new, hoffered⟩ := offered texts (Appending.start texts (readJournalFile stored)) inputs
      obtain ⟨hout, hlater⟩ := h.offered hoffered
      obtain ⟨hread, hlast, hsub⟩ := hout.trim.read
      refine ⟨hread, ?_, ?_⟩
      · rw [hlast, trim_lastSeq]
        exact hlater.lastSeq
      · intro event hevent hle
        exact hlater.retained event ((trim_events _).subset (hsub.subset hevent)) hle

def Journal.append (texts : Texts) (journal : Journal) (inputs : List LifecycleEventInput) : Journal :=
  ⟨(appendLifecycleEvents texts journal.stored inputs).1, (append_later texts journal.ordered inputs).1⟩

theorem Journal.append_later (texts : Texts) (journal : Journal) (inputs : List LifecycleEventInput) :
    Later journal.read (journal.append texts inputs).read :=
  (Lifecycle.append_later texts journal.ordered inputs).2

/-! ### The polls -/

/-- A poll under way: the journal it read, and whether its preview found a relay. -/
structure DigestPoll where
  request : LifecycleDigestRequest
  now : Int
  journal : Journal
  previewed : Bool

structure DigestSystem where
  journal : Journal
  rows : Entries String DigestSubscriberState
  polls : Entries Nat DigestPoll
  /-- The acknowledged relays, as their callers got them. -/
  relayed : List (LifecycleDigestRequest × DigestRelay)

/-- An append, or one of the three parts of a poll with the clock that it reads. -/
inductive DigestCall where
  | append (inputs : List LifecycleEventInput)
  | read (poll : Nat) (request : LifecycleDigestRequest) (clock : Int)
  | preview (poll : Nat) (clock : Int)
  | acknowledge (poll : Nat) (clock : Int)

variable (texts : Texts) (dates : Dates)

def initialSubscriber (now : Int) : DigestSubscriberState :=
  { cursorSeq := 0, lastRelayAt := none, updatedAt := dates.iso now }

def DigestSystem.subscriber (s : DigestSystem) (request : LifecycleDigestRequest) (now : Int) :
    DigestSubscriberState :=
  (s.rows.at? (digestScopeKey request)).getD (initialSubscriber dates now)

/-- The first half of `pollLifecycleDigest`, up to its early return. -/
def DigestSystem.preview (s : DigestSystem) (id : Nat) (poll : DigestPoll) (clock : Int) :
    DigestSystem × Option LifecycleDigestResult :=
  let result := evaluateDigest dates poll.journal.read poll.request
    (s.subscriber dates poll.request poll.now) clock
  if poll.request.acknowledge = some false ∨ result.relay = none then
    ({ s with polls := s.polls.delete id }, some result)
  else ({ s with polls := s.polls.set (id, { poll with previewed := true }) }, none)

/-- The rest, under the lease. -/
def DigestSystem.acknowledge (s : DigestSystem) (id : Nat) (poll : DigestPoll) (clock : Int) :
    DigestSystem × Option LifecycleDigestResult :=
  let result := evaluateDigest dates poll.journal.read poll.request
    (s.subscriber dates poll.request poll.now) clock
  match result.relay with
  | none => ({ s with polls := s.polls.delete id }, some result)
  | some relay =>
      let row : DigestSubscriberState :=
        { cursorSeq := result.cursor
          lastRelayAt := some (dates.iso poll.now)
          updatedAt := dates.iso poll.now }
      ({ s with
          rows := s.rows.set (digestScopeKey poll.request, row)
          polls := s.polls.delete id
          relayed := s.relayed ++ [(poll.request, relay)] }, some result)

def DigestSystem.step (s : DigestSystem) : DigestCall → DigestSystem × Option LifecycleDigestResult
  | .append inputs => ({ s with journal := s.journal.append texts inputs }, none)
  | .read id request clock =>
      let poll : DigestPoll :=
        { request := request, now := request.nowAt clock, journal := s.journal, previewed := false }
      ({ s with polls := s.polls.set (id, poll) }, none)
  | .preview id clock =>
      match s.polls.at? id with
      | some poll => if poll.previewed then (s, none) else s.preview dates id poll clock
      | none => (s, none)
  | .acknowledge id clock =>
      match s.polls.at? id with
      | some poll => if poll.previewed then s.acknowledge dates id poll clock else (s, none)
      | none => (s, none)

/-- Any journal and any cursors, with no poll under way. -/
def DigestSystem.start (journal : Journal) (rows : Entries String DigestSubscriberState) : DigestSystem :=
  { journal := journal, rows := rows, polls := Table.empty, relayed := [] }

/-- The stored cursor of a request's scope. -/
def DigestSystem.cursor (s : DigestSystem) (request : LifecycleDigestRequest) : Nat :=
  ((s.rows.at? (digestScopeKey request)).map (·.cursorSeq)).getD 0

end Delegatus.Lifecycle
