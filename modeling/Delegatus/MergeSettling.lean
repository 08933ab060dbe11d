import Delegatus.MergeDecisions
import Mathlib.Data.List.Induction

/-!
# A merge waits for settled checks

The reads of one merge record are taken in turn, each with the chain and the updates that the
record has by then.  A read that answers merge was preceded by one that saw the same head at least
the settle time before, and by one that named all its checks (`merge_is_settled`).  Reads that stop before
the bookkeeping do not count there: they block the merge, and a retry starts the clock anew.  The
statement over all reads fails (`stopped_read_uncounted`).
-/

namespace Delegatus.AutoMerge

open Runs

/-- One read of the pull request: what GitHub answered, and the record's chain and updates then. -/
structure MergeRead where
  view : PullRequestView
  required : List String
  now : Int
  chain : List String
  updates : List BaseUpdate

def MergeRead.head (read : MergeRead) : String := read.view.headRefOid

def takeRead (merge : MergeRecord) (read : MergeRead) : MergeRecord × Step :=
  decideMerge { merge with chain := read.chain, updates := read.updates } read.view read.required read.now

/-- The read saw the head behind its base, outside an outstanding update. -/
def MergeRead.Behind (read : MergeRead) : Prop :=
  read.view.mergeStateStatus = some "BEHIND" ∧ outstanding read.updates = false

/-- What the reads before `last` and `last` itself say when `last` answers merge; `counts` are the
reads that are reckoned with. -/
structure Settles (counts : MergeRead → Prop) (reads : List MergeRead) (last : MergeRead) : Prop where
  tip : last.chain.getLast? = some last.head
  unfailed : ∀ check ∈ last.view.checks, check.verdict ≠ .red
  required : ∀ name ∈ last.required, name ∈ checkNames last.view ∧
    ∀ check ∈ last.view.checks, check.name = name → check.verdict = .green
  landed : ∀ update ∈ last.updates, update.head ≠ none
  clock : ∃ pre first post, reads = pre ++ first :: post ∧ counts first ∧ first.head = last.head ∧
    ¬first.Behind ∧ first.now + MERGE_SETTLE_MS ≤ last.now ∧
    ∀ read ∈ post, counts read → read.head = last.head ∧ ¬read.Behind
  names : ∃ pre previous post, reads = pre ++ previous :: post ∧ counts previous ∧
    previous.head = last.head ∧ (∀ read ∈ post, counts read → read.head ≠ last.head) ∧
    ∀ name ∈ checkNames last.view, name ∈ checkNames previous.view

/-- The read gets to the bookkeeping. -/
structure MergeRead.Tracked (read : MergeRead) : Prop where
  merged : read.view.state ≠ "MERGED"
  closed : read.view.state ≠ "CLOSED"
  reviews : changesRequested read.view = false
  draft : ¬(read.view.isDraft = true ∨ read.view.mergeStateStatus = some "DRAFT")
  tip : read.chain.getLast? = some read.head

theorem stopOf_eq_none {merge : MergeRecord} {read : MergeRead} (hchain : merge.chain = read.chain) :
    stopOf merge read.view = none ↔ read.Tracked := by
  unfold stopOf
  rw [hchain]
  constructor
  · intro h
    split at h
    · contradiction
    split at h
    · contradiction
    split at h
    · contradiction
    split at h
    · contradiction
    split at h
    · contradiction
    next hmerged hclosed hreviews hdraft htip =>
      exact ⟨hmerged, hclosed, eq_false_of_ne_true hreviews, hdraft, (not_not.mp htip).symm⟩
  · rintro ⟨hmerged, hclosed, hreviews, hdraft, htip⟩
    rw [if_neg hmerged, if_neg hclosed, if_neg (by simp [hreviews]), if_neg hdraft]
    exact if_neg (not_not.mpr htip.symm)

/-! ### The bookkeeping of the reads -/

/-- The record after the reads, up to its chain and updates. -/
def recordAfter (lastPassedCommit : String) (reads : List MergeRead) : MergeRecord :=
  after takeRead (newMerge lastPassedCommit) reads

/-- The head clock was started by a read that saw the head current, and every tracked read since
saw the same head current. -/
def Clocked (reads : List MergeRead) (head : String) (seenAt : Int) : Prop :=
  ∃ pre first post, reads = pre ++ first :: post ∧ first.Tracked ∧ first.head = head ∧
    ¬first.Behind ∧ first.now = seenAt ∧ ∀ read ∈ post, read.Tracked → read.head = head ∧ ¬read.Behind

/-- The last tracked read of the reads is of the head, and named these checks. -/
def Named (reads : List MergeRead) (head : String) (names : List String) : Prop :=
  ∃ pre previous post, reads = pre ++ previous :: post ∧ previous.Tracked ∧ previous.head = head ∧
    checkNames previous.view = names ∧ ∀ read ∈ post, ¬read.Tracked

/-- What the record says of the reads that it was updated by. -/
structure Recorded (reads : List MergeRead) (merge : MergeRecord) : Prop where
  clock : ∀ head seenAt, merge.head = some head → merge.headSeenAt = some seenAt →
    Clocked reads head seenAt
  names : ∀ head names, merge.head = some head → merge.lastChecks = some names →
    Named reads head names

theorem Clocked.concat {reads : List MergeRead} {head : String} {seenAt : Int} {read : MergeRead}
    (h : Clocked reads head seenAt) (hread : read.Tracked → read.head = head ∧ ¬read.Behind) :
    Clocked (reads ++ [read]) head seenAt := by
  obtain ⟨pre, first, post, rfl, hfirst, hhead, hcurrent, hnow, hpost⟩ := h
  refine ⟨pre, first, post ++ [read], by simp, hfirst, hhead, hcurrent, hnow, ?_⟩
  intro other hother
  rcases List.mem_append.mp hother with hold | hnew
  · exact hpost other hold
  · rw [List.mem_singleton.mp hnew]
    exact hread

theorem Named.concat {reads : List MergeRead} {head : String} {names : List String}
    {read : MergeRead} (h : Named reads head names) (hread : ¬read.Tracked) :
    Named (reads ++ [read]) head names := by
  obtain ⟨pre, previous, post, rfl, hprevious, hhead, hnames, hpost⟩ := h
  refine ⟨pre, previous, post ++ [read], by simp, hprevious, hhead, hnames, ?_⟩
  intro other hother
  rcases List.mem_append.mp hother with hold | hnew
  · exact hpost other hold
  · rw [List.mem_singleton.mp hnew]
    exact hread

theorem takeRead_of_tracked {read : MergeRead} (hread : read.Tracked) (merge : MergeRecord) :
    (takeRead merge read).1 =
      track { merge with chain := read.chain, updates := read.updates } read.view read.now := by
  unfold takeRead decideMerge
  rw [(stopOf_eq_none rfl).mpr hread]

theorem takeRead_of_stopped {read : MergeRead} (hread : ¬read.Tracked) (merge : MergeRecord) :
    (takeRead merge read).1 = { merge with chain := read.chain, updates := read.updates } := by
  unfold takeRead decideMerge
  cases hstop : stopOf { merge with chain := read.chain, updates := read.updates } read.view with
  | none => exact absurd ((stopOf_eq_none rfl).mp hstop) hread
  | some step => exact rfl

/-- The clock of a record that was not started for this head. -/
theorem forHead_of_ne {merge : MergeRecord} {head : String} (h : merge.head ≠ some head) :
    forHead merge head = { merge with head := some head, headSeenAt := none, lastChecks := none } :=
  if_neg h

theorem forHead_of_eq {merge : MergeRecord} {head : String} (h : merge.head = some head) :
    forHead merge head = merge := if_pos h

theorem forHead_head (merge : MergeRecord) (head : String) : (forHead merge head).head = some head := by
  by_cases h : merge.head = some head
  · rw [forHead_of_eq h, h]
  · rw [forHead_of_ne h]

theorem track_updates (merge : MergeRecord) (view : PullRequestView) (now : Int) :
    (track merge view now).updates = merge.updates := by
  change (forHead merge view.headRefOid).updates = merge.updates
  by_cases hhead : merge.head = some view.headRefOid
  · rw [forHead_of_eq hhead]
  · rw [forHead_of_ne hhead]

/-- The clock that a tracked read leaves: none for a head behind its base, else the one that runs
for the head, or a new one. -/
theorem track_headSeenAt {merge : MergeRecord} {view : PullRequestView} {now seenAt : Int}
    (h : (track merge view now).headSeenAt = some seenAt) :
    ¬(view.mergeStateStatus = some "BEHIND" ∧ outstanding merge.updates = false) ∧
      (merge.head = some view.headRefOid ∧ merge.headSeenAt = some seenAt ∨ seenAt = now) := by
  simp only [track] at h
  split at h
  · contradiction
  · next hcurrent =>
    refine ⟨hcurrent, ?_⟩
    have hseen := Option.some.inj h
    by_cases hhead : merge.head = some view.headRefOid
    · rw [forHead_of_eq hhead] at hseen
      cases hclock : merge.headSeenAt with
      | none => exact Or.inr (by rw [← hseen, hclock, Option.getD_none])
      | some started => exact Or.inl ⟨hhead, by rw [← hseen, hclock, Option.getD_some]⟩
    · rw [forHead_of_ne hhead] at hseen
      exact Or.inr hseen.symm

/-- **Step lemma.**  One read keeps the record true to its reads. -/
theorem Recorded.takeRead {reads : List MergeRead} {merge : MergeRecord} (h : Recorded reads merge)
    (read : MergeRead) : Recorded (reads ++ [read]) (takeRead merge read).1 := by
  by_cases hread : read.Tracked
  · rw [takeRead_of_tracked hread]
    constructor
    · intro head seenAt hhead hseen
      obtain rfl : read.head = head := Option.some.inj ((forHead_head _ _).symm.trans hhead)
      obtain ⟨hcurrent, ⟨hold, hclock⟩ | rfl⟩ := track_headSeenAt hseen
      · exact (h.clock _ _ hold hclock).concat fun _ => ⟨rfl, hcurrent⟩
      · exact ⟨reads, read, [], rfl, hread, rfl, hcurrent, rfl, by simp⟩
    · intro head names hhead hnames
      obtain rfl : read.head = head := Option.some.inj ((forHead_head _ _).symm.trans hhead)
      refine ⟨reads, read, [], rfl, hread, rfl, Option.some.inj hnames, ?_⟩
      simp
  · rw [takeRead_of_stopped hread]
    constructor
    · intro head seenAt hhead hseen
      exact (h.clock head seenAt hhead hseen).concat fun htracked => absurd htracked hread
    · intro head names hhead hnames
      exact (h.names head names hhead hnames).concat hread

theorem recorded_after (lastPassedCommit : String) (reads : List MergeRead) :
    Recorded reads (recordAfter lastPassedCommit reads) := by
  induction reads using List.reverseRecOn with
  | nil =>
    constructor
    · exact fun head seenAt hhead => nomatch hhead
    · exact fun head names hhead => nomatch hhead
  | append_singleton reads read ih =>
    rw [recordAfter, after_concat]
    exact ih.takeRead read

/-! ### The answer merge -/

/-- What a decision to merge has read, after the bookkeeping. -/
theorem judge_eq_merge {previous : Option (List String)} {merge : MergeRecord}
    {view : PullRequestView} {required : List String} {now : Int}
    (h : judge previous merge view required now = .merge) :
    outstanding merge.updates = false ∧ (∀ check ∈ view.checks, check.verdict ≠ .red) ∧
      settled previous merge view required (now - merge.headSeenAt.getD now) = true := by
  unfold judge at h
  dsimp only at h
  split at h
  · contradiction
  split at h
  · split at h <;> contradiction
  next hlanded =>
  split at h
  · contradiction
  next hred =>
  split at h
  · contradiction
  split at h
  · next hsettled =>
    refine ⟨eq_false_of_ne_true hlanded, ?_, hsettled⟩
    intro check hcheck
    simpa using List.find?_eq_none.mp hred check hcheck
  · unfold unsettled at h
    dsimp only at h
    split at h
    · contradiction
    split at h
    · contradiction
    · contradiction

theorem required_of_settled {previous : Option (List String)} {merge : MergeRecord}
    {view : PullRequestView} {required : List String} {age : Int}
    (h : settled previous merge view required age = true) {name : String} (hname : name ∈ required) :
    name ∈ checkNames view ∧ ∀ check ∈ view.checks, check.name = name → check.verdict = .green := by
  simp only [settled, Bool.and_eq_true, List.isEmpty_iff] at h
  obtain ⟨⟨⟨⟨-, hmissing⟩, -⟩, -⟩, hpending⟩ := h
  constructor
  · by_contra habsent
    have hmem : name ∈ missingContexts merge view required := by
      simp [missingContexts, List.mem_eraseDups, hname, habsent]
    rw [hmissing] at hmem
    exact absurd hmem List.not_mem_nil
  · rintro check hcheck rfl
    by_contra hverdict
    have hmem : check ∈ pendingChecks view required := by
      simp [pendingChecks, hcheck, hname, hverdict]
    rw [hpending] at hmem
    exact absurd hmem List.not_mem_nil

/-- A read that stops early does not answer merge. -/
theorem stopOf_ne_merge {merge : MergeRecord} {view : PullRequestView} :
    stopOf merge view ≠ some .merge := by
  unfold stopOf
  repeat' split
  all_goals simp

/-- The names that the previous read of the head left are those of a tracked read. -/
theorem Recorded.previous {reads : List MergeRead} {merge : MergeRecord} (h : Recorded reads merge)
    {head : String} {names : List String} (hlast : (forHead merge head).lastChecks = some names) :
    Named reads head names := by
  by_cases hhead : merge.head = some head
  · rw [forHead_of_eq hhead] at hlast
    exact h.names head names hhead hlast
  · rw [forHead_of_ne hhead] at hlast
    contradiction

/-- A clock that has run for some time was started by an earlier read. -/
theorem Recorded.clocked {reads : List MergeRead} {merge : MergeRecord} (h : Recorded reads merge)
    {view : PullRequestView} {now : Int}
    (hage : MERGE_SETTLE_MS ≤ now - (track merge view now).headSeenAt.getD now) :
    ∃ seenAt, seenAt + MERGE_SETTLE_MS ≤ now ∧ Clocked reads view.headRefOid seenAt := by
  have hsettle : (0 : Int) < MERGE_SETTLE_MS := by decide
  cases hclock : (track merge view now).headSeenAt with
  | none =>
    rw [hclock, Option.getD_none] at hage
    omega
  | some seenAt =>
    rw [hclock, Option.getD_some] at hage
    obtain ⟨-, ⟨hhead, hseen⟩ | rfl⟩ := track_headSeenAt hclock
    · exact ⟨seenAt, by omega, h.clock _ _ hhead hseen⟩
    · omega

/-- **A read of a new record's pull request that answers merge is at the tip of the chain, with no
red check, each required context present and green and no update outstanding; an earlier tracked read
saw the same head the settle time before, with no tracked read of another head or behind the base
since; and the last tracked read of the head named each check of this one.** -/
theorem merge_is_settled (lastPassedCommit : String) (reads : List MergeRead) (last : MergeRead)
    (h : answer takeRead (newMerge lastPassedCommit) reads last = .merge) :
    Settles MergeRead.Tracked reads last := by
  have hrecorded := recorded_after lastPassedCommit reads
  change (takeRead (recordAfter lastPassedCommit reads) last).2 = .merge at h
  generalize recordAfter lastPassedCommit reads = merge at hrecorded h
  have hread : Recorded reads { merge with chain := last.chain, updates := last.updates } :=
    ⟨hrecorded.clock, hrecorded.names⟩
  rw [takeRead, decideMerge] at h
  cases hstop : stopOf { merge with chain := last.chain, updates := last.updates } last.view with
  | some step =>
      rw [hstop] at h
      exact absurd (hstop.trans (congrArg some h)) stopOf_ne_merge
  | none =>
      rw [hstop] at h
      have htracked := (stopOf_eq_none rfl).mp hstop
      obtain ⟨hlanded, hunfailed, hsettled⟩ := judge_eq_merge h
      have hrequired := fun (name : String) (hname : name ∈ last.required) => required_of_settled hsettled hname
      simp only [settled, Bool.and_eq_true, decide_eq_true_eq, Option.any_eq_true] at hsettled
      obtain ⟨⟨⟨-, hage⟩, names, hnames, hgrew⟩, -⟩ := hsettled
      obtain ⟨seenAt, hseen, pre, first, post, hsplit, hfirst, hhead, hcurrent, rfl, hpost⟩ :=
        hread.clocked hage
      obtain ⟨front, previous, back, hsplit', hprevious, hhead', rfl, hback⟩ := hread.previous hnames
      refine ⟨htracked.tip, hunfailed, hrequired, ?_, ?_, ?_⟩
      · rw [track_updates] at hlanded
        intro update hupdate hnone
        have hout : outstanding last.updates = true :=
          List.any_eq_true.mpr ⟨update, hupdate, by simp [hnone]⟩
        exact Bool.noConfusion (hout.symm.trans hlanded)
      · exact ⟨pre, first, post, hsplit, hfirst, hhead, hcurrent, hseen, hpost⟩
      · refine ⟨front, previous, back, hsplit', hprevious, hhead', ?_, ?_⟩
        · exact fun read hmem htracked => absurd htracked (hback read hmem)
        · intro name hname
          simpa using List.all_eq_true.mp hgrew name hname

/-! ### Reads that stop early -/

/-- A pull request with one green check, ready to merge at `head`. -/
def readyAt (head : String) : PullRequestView where
  state := "OPEN"
  isDraft := false
  headRefOid := head
  mergeable := some "MERGEABLE"
  mergeStateStatus := some "CLEAN"
  reviewDecision := none
  checks := [⟨"build", .green⟩]
  reviews := none

def readAt (head : String) (now : Int) : MergeRead := ⟨readyAt head, ["build"], now, ["reviewed"], []⟩

theorem merge_is_settled_ready :
    Settles MergeRead.Tracked [readAt "reviewed" 0] (readAt "reviewed" 180000) :=
  merge_is_settled "reviewed" [readAt "reviewed" 0] (readAt "reviewed" 180000) (by decide +kernel)

/-- **A read of another head does not restart the clock.**  It blocks the merge, and the clock of
the record goes on when the head is back. -/
theorem stopped_read_uncounted :
    ¬∀ (reads : List MergeRead) (last : MergeRead),
      (reads ++ [last]).Pairwise (fun earlier later => earlier.now ≤ later.now) →
      answer takeRead (newMerge "reviewed") reads last = .merge →
      Settles (fun _ => True) reads last := by
  intro hall
  have hsettles := hall [readAt "reviewed" 0, readAt "pushed" 60000] (readAt "reviewed" 180000)
    (by decide) (by decide +kernel)
  obtain ⟨pre, first, post, hsplit, -, hhead, -, -, hpost⟩ := hsettles.clock
  rcases pre with _ | ⟨skipped, pre⟩
  · obtain ⟨rfl, rfl⟩ := List.cons.inj hsplit
    have hsame := (hpost (readAt "pushed" 60000) (by simp) trivial).1
    exact absurd hsame (by decide)
  · obtain ⟨-, hrest⟩ := List.cons.inj hsplit
    rcases pre with _ | ⟨other, pre⟩
    · obtain ⟨rfl, -⟩ := List.cons.inj hrest
      exact absurd hhead (by decide)
    · simp at hrest

end Delegatus.AutoMerge
