import Delegatus.LifecycleJournal

/-!
# Each transition is appended once

`Offered` is what the loop of an append adds to the file and to the ids that it knows, and `Kept` what
the file is after any sequence of appends.  From these: the sequence numbers of a run are 1, 2, 3, …, and
the retained events have different ids.  An id is known while its event is one of the last 10,000 that
were appended, and for ever where it is that of a spawn failure; `appends_once` gives the condition under
which no transition is appended twice.
-/

namespace Delegatus.Lifecycle

open LogTails (recent older)
open Runs (after answer EveryCall)

variable {texts : Texts}

/-! ### The loop of an append -/

@[simp] theorem receive_events (a : Appending) (input : LifecycleEventInput) :
    (a.receive input).file.events = a.file.events := by
  unfold Appending.receive
  split <;> rfl

@[simp] theorem receive_retired (a : Appending) (input : LifecycleEventInput) :
    (a.receive input).file.retired = a.file.retired := by
  unfold Appending.receive
  split <;> rfl

@[simp] theorem receive_lastSeq (a : Appending) (input : LifecycleEventInput) :
    (a.receive input).file.lastSeq = a.file.lastSeq := by
  unfold Appending.receive
  split <;> rfl

@[simp] theorem receive_version (a : Appending) (input : LifecycleEventInput) :
    (a.receive input).file.version = a.file.version := by
  unfold Appending.receive
  split <;> rfl

@[simp] theorem receive_known (a : Appending) (input : LifecycleEventInput) :
    (a.receive input).known = a.known := by
  unfold Appending.receive
  split <;> rfl

@[simp] theorem receive_appended (a : Appending) (input : LifecycleEventInput) :
    (a.receive input).appended = a.appended := by
  unfold Appending.receive
  split <;> rfl

@[simp] theorem admit_receipts (a : Appending) (input : LifecycleEventInput) :
    (a.accept texts input).file.spawnFailureKeys = a.file.spawnFailureKeys := by
  unfold Appending.accept
  split <;> rfl

@[simp] theorem admit_changed (a : Appending) (input : LifecycleEventInput) :
    (a.accept texts input).spawnFailureKeysChanged = a.spawnFailureKeysChanged := by
  unfold Appending.accept
  split <;> rfl

/-- The receipts of a file: distinct keys of spawn failures. -/
structure Receipts (keys : List String) : Prop where
  nodup : keys.Nodup
  spawn : ∀ key ∈ keys, isSpawnFailureKey key = true

/-- What the loop adds, from `a` on: the events `new` and some receipts. -/
structure Offered (texts : Texts) (a : Appending) (inputs : List LifecycleEventInput) (out : Appending)
    (new : List LifecycleEvent) : Prop where
  version : out.file.version = a.file.version
  events : out.file.events = a.file.events ++ new
  retired : out.file.retired = a.file.retired
  appended : out.appended = a.appended ++ new
  lastSeq : out.file.lastSeq = a.file.lastSeq + new.length
  seqs : new.map (·.seq) = List.range' (a.file.lastSeq + 1) new.length
  known : out.known = a.known ++ new.map (·.id)
  fresh : ∀ event ∈ new, event.id ∉ a.known
  distinct : (new.map (·.id)).Nodup
  covered : ∀ input ∈ inputs, texts.lifecycleEventId input.key ∈ out.known
  made : ∀ event ∈ new, ∃ input ∈ inputs, event.id = texts.lifecycleEventId input.key
  kept : ∀ key ∈ a.file.spawnFailureKeys, key ∈ out.file.spawnFailureKeys
  receipts : Receipts a.file.spawnFailureKeys → Receipts out.file.spawnFailureKeys
  receipted : ∀ input ∈ inputs, input.isSpawnFailure = true → input.key ∈ out.file.spawnFailureKeys
  unchanged : out.spawnFailureKeysChanged = false →
    out.file.spawnFailureKeys = a.file.spawnFailureKeys ∧ a.spawnFailureKeysChanged = false

theorem receive_kept {a : Appending} {input : LifecycleEventInput} {key : String}
    (h : key ∈ a.file.spawnFailureKeys) : key ∈ (a.receive input).file.spawnFailureKeys := by
  unfold Appending.receive
  split
  · exact List.mem_append_left _ h
  · exact h

theorem receive_receipts {a : Appending} {input : LifecycleEventInput}
    (h : Receipts a.file.spawnFailureKeys) : Receipts (a.receive input).file.spawnFailureKeys := by
  unfold Appending.receive
  split
  case isTrue hnew =>
    simp only [Bool.and_eq_true, Bool.not_eq_true', List.contains_eq_mem, decide_eq_false_iff_not]
      at hnew
    obtain ⟨hspawn, habsent⟩ := hnew
    constructor
    · apply h.nodup.append (List.nodup_singleton _)
      simpa using habsent
    · intro key hkey
      rcases List.mem_append.mp hkey with hold | hlast
      · exact h.spawn key hold
      · rw [List.mem_singleton.mp hlast]
        simp only [LifecycleEventInput.isSpawnFailure, Bool.and_eq_true] at hspawn
        exact hspawn.2
  case isFalse => exact h

theorem receive_receipted {a : Appending} {input : LifecycleEventInput} (h : input.isSpawnFailure = true) :
    input.key ∈ (a.receive input).file.spawnFailureKeys := by
  unfold Appending.receive
  split
  case isTrue => exact List.mem_append_right _ (List.mem_singleton_self _)
  case isFalse hold => simpa [h] using hold

theorem receive_unchanged {a : Appending} {input : LifecycleEventInput}
    (h : (a.receive input).spawnFailureKeysChanged = false) : a.receive input = a := by
  unfold Appending.receive at h ⊢
  split
  case isTrue hnew =>
    rw [if_pos hnew] at h
    exact absurd h (by simp)
  case isFalse => rfl

/-- One turn of the loop: the input's id is known already, or its event is appended. -/
theorem offer_cases (texts : Texts) (a : Appending) (input : LifecycleEventInput) :
    (texts.lifecycleEventId input.key ∈ a.known ∧ Offered texts a [input] (a.offer texts input) []) ∨
    (texts.lifecycleEventId input.key ∉ a.known ∧
      Offered texts a [input] (a.offer texts input) [input.event texts (a.file.lastSeq + 1)]) := by
  have hreceipts : (a.offer texts input).file.spawnFailureKeys
      = (a.receive input).file.spawnFailureKeys := admit_receipts _ _
  have hchanged : (a.offer texts input).spawnFailureKeysChanged
      = (a.receive input).spawnFailureKeysChanged := admit_changed _ _
  have hkept : ∀ key ∈ a.file.spawnFailureKeys, key ∈ (a.offer texts input).file.spawnFailureKeys := by
    intro key hkey
    rw [hreceipts]
    exact receive_kept hkey
  have hvalid : Receipts a.file.spawnFailureKeys →
      Receipts (a.offer texts input).file.spawnFailureKeys := by
    intro hkeys
    rw [hreceipts]
    exact receive_receipts hkeys
  have hreceipted : ∀ other ∈ [input], other.isSpawnFailure = true →
      other.key ∈ (a.offer texts input).file.spawnFailureKeys := by
    intro other hother hspawn
    rw [List.mem_singleton.mp hother] at hspawn ⊢
    rw [hreceipts]
    exact receive_receipted hspawn
  have hunchanged : (a.offer texts input).spawnFailureKeysChanged = false →
      (a.offer texts input).file.spawnFailureKeys = a.file.spawnFailureKeys ∧
        a.spawnFailureKeysChanged = false := by
    intro hno
    rw [hchanged] at hno
    rw [hreceipts, ← hno, receive_unchanged hno]
    exact ⟨rfl, rfl⟩
  by_cases hknown : texts.lifecycleEventId input.key ∈ a.known
  · refine Or.inl ⟨hknown, ?_⟩
    have hsame : a.offer texts input = { a.receive input with skipped := (a.receive input).skipped + 1 } := by
      unfold Appending.offer Appending.accept
      rw [if_pos (by simpa using hknown)]
    exact {
      version := by simp [hsame]
      events := by simp [hsame]
      retired := by simp [hsame]
      appended := by simp [hsame]
      lastSeq := by simp [hsame]
      seqs := by simp
      known := by simp [hsame]
      fresh := by simp
      distinct := by simp
      covered := by simpa [hsame] using hknown
      made := by simp
      kept := hkept
      receipts := hvalid
      receipted := hreceipted
      unchanged := hunchanged }
  · refine Or.inr ⟨hknown, ?_⟩
    have hnot : ¬(a.receive input).known.contains (texts.lifecycleEventId input.key) = true := by
      simpa using hknown
    unfold Appending.offer Appending.accept at hkept hvalid hreceipted hunchanged ⊢
    rw [if_neg hnot] at hkept hvalid hreceipted hunchanged ⊢
    exact {
      version := by simp
      events := by simp
      retired := by simp
      appended := by simp
      lastSeq := by simp
      seqs := by simp [LifecycleEventInput.event]
      known := by simp [LifecycleEventInput.event]
      fresh := by simpa [LifecycleEventInput.event] using hknown
      distinct := by simp
      covered := by simp
      made := by simp [LifecycleEventInput.event]
      kept := hkept
      receipts := hvalid
      receipted := hreceipted
      unchanged := hunchanged }

theorem Offered.trans {a mid out : Appending} {front back : List LifecycleEventInput}
    {first second : List LifecycleEvent} (h : Offered texts a front mid first)
    (h' : Offered texts mid back out second) : Offered texts a (front ++ back) out (first ++ second) := by
  have hseqs : (first ++ second).map (·.seq)
      = List.range' (a.file.lastSeq + 1) (first ++ second).length := by
    have hnext : a.file.lastSeq + first.length + 1 = a.file.lastSeq + 1 + first.length := by omega
    rw [List.map_append, h.seqs, h'.seqs, h.lastSeq, List.length_append, hnext, List.range'_append_1]
  have hfresh : ∀ event ∈ first ++ second, event.id ∉ a.known := by
    intro event hevent
    rcases List.mem_append.mp hevent with hold | hnew
    · exact h.fresh event hold
    · intro hknown
      apply h'.fresh event hnew
      rw [h.known]
      exact List.mem_append_left _ hknown
  have hdistinct : ((first ++ second).map (·.id)).Nodup := by
    rw [List.map_append]
    apply h.distinct.append h'.distinct
    intro id hold hnew
    obtain ⟨event, hevent, rfl⟩ := List.mem_map.mp hnew
    apply h'.fresh event hevent
    rw [h.known]
    exact List.mem_append_right _ hold
  exact {
    version := h'.version.trans h.version
    events := by rw [h'.events, h.events, List.append_assoc]
    retired := h'.retired.trans h.retired
    appended := by rw [h'.appended, h.appended, List.append_assoc]
    lastSeq := by
      rw [h'.lastSeq, h.lastSeq, List.length_append]
      omega
    seqs := hseqs
    known := by rw [h'.known, h.known, List.map_append, List.append_assoc]
    fresh := hfresh
    distinct := hdistinct
    covered := by
      intro input hinput
      rcases List.mem_append.mp hinput with hfront | hback
      · rw [h'.known]
        exact List.mem_append_left _ (h.covered input hfront)
      · exact h'.covered input hback
    made := by
      intro event hevent
      rcases List.mem_append.mp hevent with hold | hnew
      · obtain ⟨input, hinput, heq⟩ := h.made event hold
        exact ⟨input, List.mem_append_left _ hinput, heq⟩
      · obtain ⟨input, hinput, heq⟩ := h'.made event hnew
        exact ⟨input, List.mem_append_right _ hinput, heq⟩
    kept := fun key hkey => h'.kept key (h.kept key hkey)
    receipts := fun hkeys => h'.receipts (h.receipts hkeys)
    receipted := by
      intro input hinput hspawn
      rcases List.mem_append.mp hinput with hfront | hback
      · exact h'.kept _ (h.receipted input hfront hspawn)
      · exact h'.receipted input hback hspawn
    unchanged := by
      intro hno
      obtain ⟨hsecond, hmid⟩ := h'.unchanged hno
      obtain ⟨hfirst, hstart⟩ := h.unchanged hmid
      exact ⟨hsecond.trans hfirst, hstart⟩ }

/-- The whole loop. -/
theorem offered (texts : Texts) (a : Appending) (inputs : List LifecycleEventInput) :
    ∃ new, Offered texts a inputs (inputs.foldl (Appending.offer texts) a) new := by
  induction inputs generalizing a with
  | nil =>
    refine ⟨[], ?_⟩
    constructor <;> simp
  | cons input rest ih =>
    have hfirst : ∃ new, Offered texts a [input] (a.offer texts input) new := by
      rcases offer_cases texts a input with ⟨_, h⟩ | ⟨_, h⟩
      · exact ⟨_, h⟩
      · exact ⟨_, h⟩
    obtain ⟨first, hfirst⟩ := hfirst
    obtain ⟨second, hsecond⟩ := ih (a.offer texts input)
    exact ⟨first ++ second, hfirst.trans hsecond⟩

/-! ### The file after a run -/

/-- A run's journal: the file, and everything that was ever appended to it. -/
structure History where
  stored : Option LifecycleJournalFile
  log : List LifecycleEvent

def History.append (texts : Texts) (h : History) (inputs : List LifecycleEventInput) :
    History × (List LifecycleEvent × Nat) :=
  let result := appendLifecycleEvents texts h.stored inputs
  ({ stored := result.1, log := h.log ++ result.2.1 }, result.2)

/-- No file yet. -/
def History.none : History := { stored := Option.none, log := [] }

/-- A file of which only the ends are kept. -/
structure Tails (file : LifecycleJournalFile) (log : List LifecycleEvent) : Prop where
  version : file.version = LIFECYCLE_JOURNAL_VERSION
  lastSeq : file.lastSeq = log.length
  events : file.events = recent LIFECYCLE_JOURNAL_CAPACITY log
  retired : file.retired = older LIFECYCLE_JOURNAL_CAPACITY RETIRED_ID_CAPACITY (·.id) log
  receipts : Receipts file.spawnFailureKeys

/-- **The invariant of a journal.** -/
structure Kept (h : History) : Prop where
  numbered : h.log.map (·.seq) = List.range' 1 h.log.length
  distinct : ((h.log.map (·.id)).rtake (LIFECYCLE_JOURNAL_CAPACITY + RETIRED_ID_CAPACITY)).Nodup
  tails : Tails (readJournalFile h.stored) h.log

theorem kept_none : Kept History.none := by
  refine ⟨rfl, List.nodup_nil, ?_⟩
  exact ⟨rfl, rfl, rfl, rfl, ⟨List.nodup_nil, by simp [readJournalFile, emptyJournal, History.none]⟩⟩

theorem sortBySeq_of_increasing {events : List LifecycleEvent}
    (h : events.Pairwise fun a b => a.seq < b.seq) : sortBySeq events = events := by
  apply List.Pairwise.insertionSort_eq
  exact h.imp fun hlt => le_of_lt hlt

theorem increasing_of_numbered {log : List LifecycleEvent} {n : Nat}
    (h : log.map (·.seq) = List.range' n log.length) : log.Pairwise fun a b => a.seq < b.seq := by
  have hseqs : (log.map (·.seq)).Pairwise (· < ·) := by
    rw [h]
    exact @List.pairwise_lt_range' n log.length 1 (by decide)
  exact List.pairwise_map.mp hseqs

/-- A read of a stored file gives the file back. -/
theorem readJournalFile_of_tails {file : LifecycleJournalFile} {log : List LifecycleEvent}
    (hnumbered : log.map (·.seq) = List.range' 1 log.length) (h : Tails file log) :
    readJournalFile (some file) = file := by
  have hincreasing : file.events.Pairwise fun a b => a.seq < b.seq := by
    rw [h.events]
    exact (increasing_of_numbered hnumbered).sublist (LogTails.rtake_suffix _ _).sublist
  have hbound : ∀ event ∈ file.events, event.seq ≤ file.lastSeq := by
    intro event hevent
    rw [h.events] at hevent
    have hlog : event ∈ log := (LogTails.rtake_suffix _ _).subset hevent
    have hseq : event.seq ∈ log.map (·.seq) := List.mem_map_of_mem hlog
    rw [hnumbered, List.mem_range'_1] at hseq
    rw [h.lastSeq]
    omega
  have hhighest : max file.lastSeq ((file.events.getLast?.map (·.seq)).getD 0) = file.lastSeq := by
    apply max_eq_left
    cases hlast : file.events.getLast? with
    | none => simp
    | some event => exact hbound event (List.mem_of_getLast? hlast)
  have hkeys : (file.spawnFailureKeys.filter isSpawnFailureKey).eraseDups = file.spawnFailureKeys := by
    rw [List.filter_eq_self.mpr h.receipts.spawn]
    exact DistinctSorts.eraseDups_of_nodup h.receipts.nodup
  have hlength : ¬file.events.length > LIFECYCLE_JOURNAL_CAPACITY := by
    rw [h.events, recent, LogTails.length_rtake]
    omega
  have hnormal : normalizeJournal file = file := by
    unfold normalizeJournal
    dsimp only
    rw [sortBySeq_of_increasing hincreasing, hhighest, hkeys, ← h.version]
  simp only [readJournalFile]
  rw [hnormal, sortBySeq_of_increasing hincreasing, trimJournal, if_neg hlength]

/-- The ids that a file makes known are those of the last events appended and of the spawn failures. -/
theorem Tails.mem_known {file : LifecycleJournalFile} {log : List LifecycleEvent} (h : Tails file log)
    (id : String) : id ∈ file.known texts ↔
      id ∈ (log.map (·.id)).rtake (LIFECYCLE_JOURNAL_CAPACITY + RETIRED_ID_CAPACITY) ∨
        ∃ key ∈ file.spawnFailureKeys, texts.lifecycleEventId key = id := by
  have hnames := LogTails.older_append_recent LIFECYCLE_JOURNAL_CAPACITY RETIRED_ID_CAPACITY
    (LifecycleEvent.id) log
  rw [← hnames, LifecycleJournalFile.known, h.events, h.retired, List.mem_append, List.mem_append,
    List.mem_append, List.mem_map (l := file.spawnFailureKeys)]
  rw [or_comm (a := id ∈ (recent LIFECYCLE_JOURNAL_CAPACITY log).map _)]

theorem Tails.trim {file : LifecycleJournalFile} {log new : List LifecycleEvent}
    {out : LifecycleJournalFile} (h : Tails file log) (hversion : out.version = file.version)
    (hevents : out.events = file.events ++ new) (hretired : out.retired = file.retired)
    (hlast : out.lastSeq = file.lastSeq + new.length) (hkeys : Receipts out.spawnFailureKeys) :
    Tails (trimJournal out) (log ++ new) := by
  have hlong : out.events = recent LIFECYCLE_JOURNAL_CAPACITY log ++ new := by rw [hevents, h.events]
  have hcount : out.lastSeq = (log ++ new).length := by
    rw [hlast, h.lastSeq, List.length_append]
  have holder := LogTails.older_append LIFECYCLE_JOURNAL_CAPACITY RETIRED_ID_CAPACITY
    (LifecycleEvent.id) log new
  have hrecent := LogTails.recent_append LIFECYCLE_JOURNAL_CAPACITY log new
  unfold trimJournal
  split
  case isTrue =>
    refine ⟨hversion.trans h.version, hcount, ?_, ?_, hkeys⟩
    · rw [hrecent, ← hlong]
    · rw [holder, ← hlong, hretired, h.retired]
  case isFalse hshort =>
    rw [not_lt] at hshort
    refine ⟨hversion.trans h.version, hcount, ?_, ?_, hkeys⟩
    · rw [hrecent, ← hlong, LogTails.rtake_of_length_le _ hshort]
    · rw [holder, ← hlong, LogTails.rdrop_of_length_le _ hshort, hretired, h.retired]
      simp [older, LogTails.rtake_of_length_le, LogTails.length_rtake]

/-- What one call appends, against the journal that it is made on. -/
structure Appends (texts : Texts) (h : History) (inputs : List LifecycleEventInput)
    (new : List LifecycleEvent) : Prop where
  log : (h.append texts inputs).1.log = h.log ++ new
  answer : (h.append texts inputs).2.1 = new
  fresh : ∀ event ∈ new, event.id ∉ (readJournalFile h.stored).known texts
  distinct : (new.map (·.id)).Nodup
  covered : ∀ input ∈ inputs, texts.lifecycleEventId input.key ∈ (readJournalFile h.stored).known texts ∨
    texts.lifecycleEventId input.key ∈ new.map (·.id)
  made : ∀ event ∈ new, ∃ input ∈ inputs, event.id = texts.lifecycleEventId input.key
  kept : ∀ key ∈ (readJournalFile h.stored).spawnFailureKeys,
    key ∈ (readJournalFile (h.append texts inputs).1.stored).spawnFailureKeys
  receipted : ∀ input ∈ inputs, input.isSpawnFailure = true →
    input.key ∈ (readJournalFile (h.append texts inputs).1.stored).spawnFailureKeys

theorem Kept.numbered_append {h : History} (hkept : Kept h) {new : List LifecycleEvent}
    (hseqs : new.map (·.seq) = List.range' ((readJournalFile h.stored).lastSeq + 1) new.length) :
    (h.log ++ new).map (·.seq) = List.range' 1 (h.log ++ new).length := by
  rw [hkept.tails.lastSeq, Nat.add_comm] at hseqs
  rw [List.map_append, hkept.numbered, hseqs, List.length_append, List.range'_append_1]

theorem Kept.distinct_append {h : History} (hkept : Kept h) {new : List LifecycleEvent}
    (hfresh : ∀ event ∈ new, event.id ∉ (readJournalFile h.stored).known texts)
    (hdistinct : (new.map (·.id)).Nodup) :
    (((h.log ++ new).map (·.id)).rtake (LIFECYCLE_JOURNAL_CAPACITY + RETIRED_ID_CAPACITY)).Nodup := by
  rw [List.map_append, LogTails.rtake_append]
  apply List.Nodup.sublist (LogTails.rtake_suffix _ _).sublist
  apply hkept.distinct.append hdistinct
  intro id hold hnew
  obtain ⟨event, hevent, rfl⟩ := List.mem_map.mp hnew
  apply hfresh event hevent
  rw [hkept.tails.mem_known]
  exact Or.inl hold

/-- A call that finds nothing to write. -/
theorem Kept.append_nothing {h : History} (hkept : Kept h) {inputs : List LifecycleEventInput}
    {skipped : Nat} (hcall : appendLifecycleEvents texts h.stored inputs = (h.stored, [], skipped))
    (hcovered : ∀ input ∈ inputs,
      texts.lifecycleEventId input.key ∈ (readJournalFile h.stored).known texts)
    (hreceipted : ∀ input ∈ inputs, input.isSpawnFailure = true →
      input.key ∈ (readJournalFile h.stored).spawnFailureKeys) :
    Kept (h.append texts inputs).1 ∧ ∃ new, Appends texts h inputs new := by
  have hsame : h.append texts inputs = (h, [], skipped) := by
    unfold History.append
    rw [hcall]
    simp
  refine ⟨by rwa [hsame], [], ?_⟩
  exact {
    log := by simp [hsame]
    answer := by rw [hsame]
    fresh := by simp
    distinct := List.nodup_nil
    covered := fun input hinput => Or.inl (hcovered input hinput)
    made := by simp
    kept := by simp [hsame]
    receipted := by rwa [hsame] }

/-- A call that writes the file. -/
theorem Kept.append_written {h : History} (hkept : Kept h) {inputs : List LifecycleEventInput}
    {out : Appending} {new : List LifecycleEvent}
    (hoffered : Offered texts (Appending.start texts (readJournalFile h.stored)) inputs out new)
    (hcall : appendLifecycleEvents texts h.stored inputs
      = (some (trimJournal out.file), out.appended, out.skipped)) :
    Kept (h.append texts inputs).1 ∧ ∃ new, Appends texts h inputs new := by
  have happended : out.appended = new := by
    rw [hoffered.appended]
    exact List.nil_append _
  have hresult : h.append texts inputs =
      ({ stored := some (trimJournal out.file), log := h.log ++ new }, new, out.skipped) := by
    unfold History.append
    rw [hcall, happended]
  have hnumbered := hkept.numbered_append hoffered.seqs
  have htails : Tails (trimJournal out.file) (h.log ++ new) :=
    hkept.tails.trim hoffered.version hoffered.events hoffered.retired hoffered.lastSeq
      (hoffered.receipts hkept.tails.receipts)
  have hread : readJournalFile (some (trimJournal out.file)) = trimJournal out.file :=
    readJournalFile_of_tails hnumbered htails
  have hkeys : (trimJournal out.file).spawnFailureKeys = out.file.spawnFailureKeys := by
    unfold trimJournal
    split <;> rfl
  constructor
  · rw [hresult]
    refine ⟨hnumbered, hkept.distinct_append hoffered.fresh hoffered.distinct, ?_⟩
    rw [hread]
    exact htails
  · refine ⟨new, ?_⟩
    exact {
      log := by rw [hresult]
      answer := by rw [hresult]
      fresh := hoffered.fresh
      distinct := hoffered.distinct
      covered := by
        intro input hinput
        have hknown := hoffered.covered input hinput
        rw [hoffered.known] at hknown
        exact List.mem_append.mp hknown
      made := hoffered.made
      kept := by
        intro key hkey
        rw [hresult, hread, hkeys]
        exact hoffered.kept key hkey
      receipted := by
        intro input hinput hspawn
        rw [hresult, hread, hkeys]
        exact hoffered.receipted input hinput hspawn }

variable (texts) in
/-- **One call.** -/
theorem Kept.append {h : History} (hkept : Kept h) (inputs : List LifecycleEventInput) :
    Kept (h.append texts inputs).1 ∧ ∃ new, Appends texts h inputs new := by
  obtain ⟨new, hoffered⟩ := offered texts (Appending.start texts (readJournalFile h.stored)) inputs
  have happended : _ = [] ++ new := hoffered.appended
  rw [List.nil_append] at happended
  by_cases hempty : inputs.isEmpty = true
  · rw [List.isEmpty_iff] at hempty
    subst hempty
    have hcall : appendLifecycleEvents texts h.stored [] = (h.stored, [], 0) := rfl
    exact hkept.append_nothing hcall (by simp) (by simp)
  · set out := inputs.foldl (Appending.offer texts) (Appending.start texts (readJournalFile h.stored))
      with hout
    by_cases hidle : out.appended.isEmpty && !out.spawnFailureKeysChanged
    · have hcall : appendLifecycleEvents texts h.stored inputs = (h.stored, out.appended, out.skipped) := by
        unfold appendLifecycleEvents appendInTransaction
        rw [if_neg hempty, if_pos hidle]
      obtain ⟨hnone, hunchanged⟩ := Bool.and_eq_true_iff.mp hidle
      rw [List.isEmpty_iff] at hnone
      obtain ⟨hkeys, -⟩ := hoffered.unchanged (by simpa using hunchanged)
      have hnew : new = [] := by rw [← happended, hnone]
      rw [hnone] at hcall
      apply hkept.append_nothing hcall
      · intro input hinput
        have hknown := hoffered.covered input hinput
        rw [hoffered.known, hnew, List.map_nil, List.append_nil] at hknown
        exact hknown
      · intro input hinput hspawn
        have hkey := hoffered.receipted input hinput hspawn
        rw [hkeys] at hkey
        exact hkey
    · apply hkept.append_written hoffered
      unfold appendLifecycleEvents appendInTransaction
      rw [if_neg hempty, if_neg hidle]

variable (texts) in
theorem kept_after (calls : List (List LifecycleEventInput)) :
    Kept (after (History.append texts) History.none calls) :=
  Runs.after_invariant (fun _ inputs hkept => (hkept.append texts inputs).1) kept_none calls

/-! ### No transition twice -/

/-- The ids that a call appends. -/
def appendedIds (h : History) (inputs : List LifecycleEventInput) (id : String) : Prop :=
  id ∈ (h.append texts inputs).2.1.map (·.id)

/-- Every input that was appended before is still remembered: fewer than 10,000 events were appended
after it, or it is a spawn failure. -/
def Remembers (texts : Texts) (h : History) (inputs : List LifecycleEventInput) : Prop :=
  ∀ input ∈ inputs, texts.lifecycleEventId input.key ∈ h.log.map (·.id) →
    texts.lifecycleEventId input.key ∈
        (h.log.map (·.id)).rtake (LIFECYCLE_JOURNAL_CAPACITY + RETIRED_ID_CAPACITY) ∨
      ∃ key ∈ (readJournalFile h.stored).spawnFailureKeys,
        texts.lifecycleEventId key = texts.lifecycleEventId input.key

/-- What a run of appends promises.  `log` holds the events of all its calls in order. -/
structure AppendsOnce (texts : Texts) (calls : List (List LifecycleEventInput)) : Prop where
  increasing : (after (History.append texts) History.none calls).log.Pairwise fun a b => a.seq < b.seq
  unique : ∀ pre post, calls = pre ++ post →
    ((readJournalFile (after (History.append texts) History.none pre).stored).events.map (·.id)).Nodup
  once : ∀ key pre first mid second post, calls = pre ++ first :: mid ++ second :: post →
    texts.lifecycleEventId key ∈ (answer (History.append texts) History.none pre first).1.map (·.id) →
    texts.lifecycleEventId key ∉
      (answer (History.append texts) History.none (pre ++ first :: mid) second).1.map (·.id)
  replay : ∀ pre inputs mid post, calls = pre ++ inputs :: mid ++ inputs :: post →
    (answer (History.append texts) History.none (pre ++ inputs :: mid) inputs).1 = []

/-- The id was appended, or it is that of a spawn failure. -/
def History.Names (texts : Texts) (h : History) (id : String) : Prop :=
  id ∈ h.log.map (·.id) ∨
    ∃ key ∈ (readJournalFile h.stored).spawnFailureKeys, texts.lifecycleEventId key = id

theorem Kept.names_of_known {h : History} (hkept : Kept h) {id : String}
    (hknown : id ∈ (readJournalFile h.stored).known texts) : h.Names texts id := by
  rcases (hkept.tails.mem_known id).mp hknown with hlast | hspawn
  · exact Or.inl ((LogTails.rtake_suffix _ _).subset hlast)
  · exact Or.inr hspawn

/-- A named input that the call remembers is known to it. -/
theorem Kept.known_of_names {h : History} (hkept : Kept h) {inputs : List LifecycleEventInput}
    (hremembers : Remembers texts h inputs) {input : LifecycleEventInput} (hinput : input ∈ inputs)
    (hnames : h.Names texts (texts.lifecycleEventId input.key)) :
    texts.lifecycleEventId input.key ∈ (readJournalFile h.stored).known texts := by
  rw [hkept.tails.mem_known]
  rcases hnames with hlog | hspawn
  · exact hremembers input hinput hlog
  · exact Or.inr hspawn

theorem Appends.names {h : History} {inputs : List LifecycleEventInput} {new : List LifecycleEvent}
    (happends : Appends texts h inputs new) {id : String} (hnames : h.Names texts id) :
    (h.append texts inputs).1.Names texts id := by
  rcases hnames with hlog | ⟨key, hkey, heq⟩
  · left
    rw [happends.log, List.map_append]
    exact List.mem_append_left _ hlog
  · exact Or.inr ⟨key, happends.kept key hkey, heq⟩

/-- A call names each of its inputs. -/
theorem Appends.names_input {h : History} (hkept : Kept h) {inputs : List LifecycleEventInput}
    {new : List LifecycleEvent} (happends : Appends texts h inputs new) {input : LifecycleEventInput}
    (hinput : input ∈ inputs) :
    (h.append texts inputs).1.Names texts (texts.lifecycleEventId input.key) := by
  rcases happends.covered input hinput with hknown | hnew
  · exact happends.names (hkept.names_of_known hknown)
  · left
    rw [happends.log, List.map_append]
    exact List.mem_append_right _ hnew

theorem names_after {pre : List (List LifecycleEventInput)} (mid : List (List LifecycleEventInput))
    {id : String} (hnames : (after (History.append texts) History.none pre).Names texts id) :
    (after (History.append texts) History.none (pre ++ mid)).Names texts id := by
  rw [Runs.after_append]
  have hstep : ∀ h inputs, Kept h ∧ h.Names texts id →
      Kept (h.append texts inputs).1 ∧ (h.append texts inputs).1.Names texts id := by
    intro h inputs ⟨hkept, hnamed⟩
    obtain ⟨hnext, new, happends⟩ := hkept.append texts inputs
    exact ⟨hnext, happends.names hnamed⟩
  exact (Runs.after_invariant hstep ⟨kept_after texts pre, hnames⟩ mid).2

/-- A call that remembers its inputs appends none that is named. -/
theorem Kept.not_appended {h : History} (hkept : Kept h) {inputs : List LifecycleEventInput}
    (hremembers : Remembers texts h inputs) {id : String} (hnames : h.Names texts id) :
    id ∉ (h.append texts inputs).2.1.map (·.id) := by
  obtain ⟨-, new, happends⟩ := hkept.append texts inputs
  rw [happends.answer]
  intro hnew
  obtain ⟨event, hevent, rfl⟩ := List.mem_map.mp hnew
  obtain ⟨input, hinput, heq⟩ := happends.made event hevent
  rw [heq] at hnames
  apply happends.fresh event hevent
  rw [heq]
  exact hkept.known_of_names hremembers hinput hnames

theorem once_of_remembers {calls : List (List LifecycleEventInput)}
    (h : EveryCall (History.append texts) (Remembers texts) History.none calls) :
    AppendsOnce texts calls := by
  constructor
  · exact increasing_of_numbered (kept_after texts calls).numbered
  · intro pre post _
    have hkept := kept_after texts pre
    rw [hkept.tails.events, recent, LogTails.map_rtake]
    apply List.Nodup.sublist _ hkept.distinct
    rw [← LogTails.older_append_recent, recent, LogTails.map_rtake]
    exact List.sublist_append_right _ _
  · intro key pre first mid second post hcalls hfirst
    have hkept := kept_after texts pre
    obtain ⟨-, new, happends⟩ := hkept.append texts first
    have hnames : (after (History.append texts) History.none (pre ++ [first])).Names texts
        (texts.lifecycleEventId key) := by
      left
      rw [Runs.after_concat, happends.log, List.map_append]
      rw [answer, happends.answer] at hfirst
      exact List.mem_append_right _ hfirst
    have hlater := names_after mid hnames
    have hsplit : pre ++ [first] ++ mid = pre ++ first :: mid := by simp
    rw [hsplit] at hlater
    exact (kept_after texts _).not_appended (h _ second post hcalls) hlater
  · intro pre inputs mid post hcalls
    have hremembers := h _ inputs post hcalls
    have hkept := kept_after texts pre
    have hlater := kept_after texts (pre ++ inputs :: mid)
    obtain ⟨-, new, happends⟩ := hkept.append texts inputs
    obtain ⟨-, again, hagain⟩ := hlater.append texts inputs
    rw [answer, hagain.answer, List.eq_nil_iff_forall_not_mem]
    intro event hevent
    obtain ⟨input, hinput, heq⟩ := hagain.made event hevent
    have hnames : (after (History.append texts) History.none (pre ++ [inputs])).Names texts event.id := by
      rw [Runs.after_concat, heq]
      exact happends.names_input hkept hinput
    have hnamed := names_after mid hnames
    have hsplit : pre ++ [inputs] ++ mid = pre ++ inputs :: mid := by simp
    rw [hsplit] at hnamed
    apply hlater.not_appended hremembers hnamed
    rw [hagain.answer]
    exact List.mem_map_of_mem hevent

/-- The log's ids are those that the calls appended. -/
theorem mem_log_iff_ever (calls : List (List LifecycleEventInput)) (id : String) :
    id ∈ (after (History.append texts) History.none calls).log.map (·.id) ↔
      Runs.Ever (History.append texts) (@appendedIds texts) History.none calls id := by
  induction calls using List.reverseRecOn with
  | nil => simp [History.none, Runs.not_ever_nil]
  | append_singleton calls inputs ih =>
    have hlog : (after (History.append texts) History.none (calls ++ [inputs])).log
        = (after (History.append texts) History.none calls).log ++
          ((after (History.append texts) History.none calls).append texts inputs).2.1 := by
      rw [Runs.after_concat]
      rfl
    rw [hlog, List.map_append, List.mem_append, Runs.ever_concat, ih, or_comm]
    rfl

theorem remembers_of_once {calls : List (List LifecycleEventInput)} (h : AppendsOnce texts calls) :
    EveryCall (History.append texts) (Remembers texts) History.none calls := by
  intro pre inputs post hcalls input hinput hlog
  have hkept := kept_after texts pre
  obtain ⟨-, new, happends⟩ := hkept.append texts inputs
  obtain ⟨front, first, mid, hpre, hfirst⟩ := (mem_log_iff_ever pre _).mp hlog
  have honce := h.once input.key front first mid inputs post (by rw [hcalls, hpre]) hfirst
  rw [← hpre, answer, happends.answer] at honce
  have hknown := (happends.covered input hinput).resolve_right honce
  exact (hkept.tails.mem_known _).mp hknown

/-- **Each transition is appended once, exactly where every call remembers its inputs.** -/
theorem appends_once (calls : List (List LifecycleEventInput)) :
    AppendsOnce texts calls ↔
      EveryCall (History.append texts) (Remembers texts) History.none calls :=
  ⟨remembers_of_once, once_of_remembers⟩

/-- A call whose inputs are new and different appends them all. -/
theorem Appends.length_le {h : History} {inputs : List LifecycleEventInput} {new : List LifecycleEvent}
    (happends : Appends texts h inputs new)
    (hnodup : (inputs.map fun input => texts.lifecycleEventId input.key).Nodup)
    (hunknown : ∀ input ∈ inputs,
      texts.lifecycleEventId input.key ∉ (readJournalFile h.stored).known texts) :
    inputs.length ≤ new.length := by
  have hsub : (inputs.map fun input => texts.lifecycleEventId input.key) ⊆ new.map (·.id) := by
    intro id hid
    obtain ⟨input, hinput, rfl⟩ := List.mem_map.mp hid
    exact (happends.covered input hinput).resolve_left (hunknown input hinput)
  have hle := (List.subperm_of_subset hnodup hsub).length_le
  simpa using hle

def plainTexts : Texts :=
  { lifecycleEventId := fun key => "evt_" ++ key, operatorSafeSummary := fun summary => summary.getD "" }

/-- The delivery of the `n`-th message; the message ids are `m`, `mm`, and so on. -/
def delivered (n : Nat) : LifecycleEventInput :=
  { key := "delivery:" ++ String.ofList (List.replicate n 'm')
    type := .deliveryDelivered
    at_ := "2026-01-01T00:00:00.000Z" }

theorem delivered_id_inj {m n : Nat} :
    plainTexts.lifecycleEventId (delivered m).key = plainTexts.lifecycleEventId (delivered n).key ↔
      m = n := by
  simp only [plainTexts, delivered, String.append_right_inj, String.ofList_inj]
  constructor
  · intro h
    simpa using congrArg List.length h
  · rintro rfl
    rfl

/-- One delivery, ten thousand others, and the first one projected again. -/
def lateReplay : List (List LifecycleEventInput) :=
  [[delivered 0], (List.range 10000).map fun n => delivered (n + 1), [delivered 0]]

theorem late_replay_appends_again : ¬AppendsOnce plainTexts lateReplay := by
  intro h
  obtain ⟨hkept, first, hfirst⟩ := kept_none.append plainTexts [delivered 0]
  have hreceipts : (readJournalFile (History.none.append plainTexts [delivered 0]).1.stored).spawnFailureKeys
      = [] := by decide +kernel
  have hlog : (History.none.append plainTexts [delivered 0]).1.log = first := hfirst.log
  generalize hmid : (History.none.append plainTexts [delivered 0]).1 = mid at hkept hreceipts hlog
  generalize hothers : (List.range 10000).map (fun n => delivered (n + 1)) = others
  obtain ⟨hlast, new, hnew⟩ := hkept.append plainTexts others
  have hremembers := remembers_of_once h [[delivered 0], others] [delivered 0] []
    (by rw [lateReplay, hothers]; rfl)
  have hstate : after (History.append plainTexts) History.none [[delivered 0], others]
      = (mid.append plainTexts others).1 := by rw [← hmid]; rfl
  rw [hstate] at hremembers
  -- The first call appends the one delivery.
  have hids : ∀ id ∈ mid.log.map (·.id), id = plainTexts.lifecycleEventId (delivered 0).key := by
    rw [hlog]
    intro id hid
    obtain ⟨event, hevent, rfl⟩ := List.mem_map.mp hid
    obtain ⟨input, hinput, heq⟩ := hfirst.made event hevent
    rw [heq, List.mem_singleton.mp hinput]
  have hnamed : plainTexts.lifecycleEventId (delivered 0).key ∈ mid.log.map (·.id) := by
    rw [hlog]
    have hcovered := hfirst.covered (delivered 0) (List.mem_singleton_self _)
    exact hcovered.resolve_left (by decide +kernel)
  have hother : ∀ input ∈ others, plainTexts.lifecycleEventId input.key
      ≠ plainTexts.lifecycleEventId (delivered 0).key := by
    intro input hinput heq
    rw [← hothers] at hinput
    obtain ⟨n, -, rfl⟩ := List.mem_map.mp hinput
    have := delivered_id_inj.mp heq
    omega
  -- The second appends the ten thousand others.
  have hlength : 10000 ≤ new.length := by
    have hcount : others.length = 10000 := by rw [← hothers, List.length_map, List.length_range]
    rw [← hcount]
    apply hnew.length_le
    · rw [← hothers, List.map_map]
      apply List.Nodup.map_on _ List.nodup_range
      intro a _ b _ heq
      have := delivered_id_inj.mp heq
      omega
    · intro input hinput hknown
      rcases (hkept.tails.mem_known _).mp hknown with hlast | ⟨key, hkey, -⟩
      · exact hother input hinput (hids _ ((LogTails.rtake_suffix _ _).subset hlast))
      · rw [hreceipts] at hkey
        exact absurd hkey (List.not_mem_nil)
  -- So the third call no longer knows the first delivery.
  have hold : plainTexts.lifecycleEventId (delivered 0).key
      ∈ (mid.append plainTexts others).1.log.map (·.id) := by
    rw [hnew.log, List.map_append]
    exact List.mem_append_left _ hnamed
  rcases hremembers (delivered 0) (List.mem_singleton_self _) hold with hrecent | ⟨key, hkey, heq⟩
  · rw [hnew.log, List.map_append, LogTails.rtake_append_of_le] at hrecent
    · obtain ⟨event, hevent, heq⟩ := List.mem_map.mp ((LogTails.rtake_suffix _ _).subset hrecent)
      obtain ⟨input, hinput, hmade⟩ := hnew.made event hevent
      exact hother input hinput (hmade.symm.trans heq)
    · rw [List.length_map]
      exact hlength
  · have hspawn := hlast.tails.receipts.spawn key hkey
    have hsame : key = (delivered 0).key := by simpa [plainTexts] using heq
    rw [hsame] at hspawn
    exact absurd hspawn (by decide +kernel)

end Delegatus.Lifecycle
