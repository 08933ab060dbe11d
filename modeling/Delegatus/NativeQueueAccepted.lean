import Mathlib.Data.List.Induction
import Delegatus.NativeQueueRuns

/-!
# The version that a native queue entry presents

An update pushes its version and moves the entry's revision at its admission, before native
has seen it.  A refusal moves the revision back to the one its command names.  So between two
mutations the revision is that of the add or of the update that was acknowledged last, and
no refused update's (`presents_accepted`).

The two histories are read off the run: `Accepts` and `Refuses` are calls that answer an
entry's update, with the version that the update pushed.
-/

namespace Delegatus.NativeQueue

open JsonText (Json)
open Runs (after Ever Latest ever_concat latest_of_made not_ever_nil)

/-! ### Acceptances and refusals -/

/-- The version that the operation pushed last. -/
def pushedRevision (entry : Record) (operationId : Id) : Option Nat :=
  (entry.versions.reverse.find? (·.operationId = operationId)).map Version.revision

/-- The operation is an update. -/
def IsUpdate (operation : Operation) (command : Command) : Prop :=
  operation.request = .native command ∧ command.action = .update

/-- The call answers an update of the entry with a transition of the kind; `revision` is the
version that the update pushed. -/
def Settles (kind : Transition → Bool) (entryId : Id) (s : State) (call : Call)
    (answer : Answer) (revision : Nat) : Prop :=
  ∃ operation ∈ s.operations.rows, ∃ transition command entry,
    call = .transition operation.operationId transition ∧ kind transition = true ∧
      IsUpdate operation command ∧ answer = .saved (some entry) ∧ entry.entryId = entryId ∧
      pushedRevision entry operation.operationId = some revision

/-- The call adds the entry. -/
def Adds (entryId : Id) (call : Call) (answer : Answer) (revision : Nat) : Prop :=
  ∃ key request session rejected entry,
    call = .execute entryId key request session rejected ∧ answer = .saved (some entry) ∧
      entry.entryId = entryId ∧ pushedRevision entry entryId = some revision

section

variable (inputMatches : Version → List Json → Bool)

/-- The call adds the entry, or acknowledges an update of it. -/
def Accepts (entryId : Id) (s : State) (call : Call) (revision : Nat) : Prop :=
  Adds entryId call (step inputMatches s call).2 revision ∨
    Settles Transition.accepts entryId s call (step inputMatches s call).2 revision

/-- The call refuses an update of the entry. -/
def Refuses (entryId : Id) (s : State) (call : Call) (revision : Nat) : Prop :=
  Settles Transition.refuses entryId s call (step inputMatches s call).2 revision

end

theorem pushedRevision_kept {entry moved : Record} (h : Kept entry moved) (operationId : Id) :
    pushedRevision moved operationId = pushedRevision entry operationId := by
  unfold pushedRevision
  have hforall := List.forall₂_reverse_iff.mpr h.versions
  generalize entry.versions.reverse = versions, moved.versions.reverse = versions' at hforall
  induction hforall with
  | nil => rfl
  | @cons version version' rest rest' hprepared _ ih =>
    rw [List.find?_cons, List.find?_cons, hprepared.operationId]
    split
    · rw [Option.map_some, Option.map_some, hprepared.revision]
    · exact ih

theorem pushedRevision_update {command : Command} {operationId : Id} {entry admitted : Record}
    (h : Admits command operationId entry admitted) (hupdate : command.action = .update) :
    pushedRevision admitted operationId = some admitted.revision := by
  rw [h.eq, if_pos hupdate, pushedRevision]
  simp [newVersion]

/-! ### What an entry presents -/

/-- The entry's update is under way. -/
def InFlight (s : State) (entry : Record) (operation : Operation) (command : Command) : Prop :=
  operation ∈ s.operations.rows ∧ entry.mutationOperationId = some operation.operationId ∧
    IsUpdate operation command

/-- The entry presents `accepted`, or an update of it is under way that names `accepted`;
`refused` are the versions of the updates that were refused. -/
structure Presents (s : State) (refused : Nat → Prop) (entry : Record) (accepted : Nat) :
    Prop where
  version : accepted ∈ entry.versions.map Version.revision
  unrefused : ¬refused accepted
  inFlight : ∀ operation command, InFlight s entry operation command →
    command.expectedRevision = some accepted ∧ accepted < entry.revision ∧
      pushedRevision entry operation.operationId = some entry.revision ∧
      ¬refused entry.revision
  settled : (∀ operation command, ¬InFlight s entry operation command) →
    entry.revision = accepted

/-- What the history says of an entry. -/
structure Told (s : State) (accepted refused : Nat → Prop) (entry : Record) : Prop where
  bound : ∀ revision, refused revision → revision ≤ entry.versions.length
  presents : entry.proof = none → ∃ revision, accepted revision ∧ Presents s refused entry revision

theorem Presents.congr {s s' : State} {refused : Nat → Prop} {entry : Record} {accepted : Nat}
    (h : Presents s refused entry accepted)
    (hsame : ∀ operation command, InFlight s' entry operation command ↔
      InFlight s entry operation command) : Presents s' refused entry accepted where
  version := h.version
  unrefused := h.unrefused
  inFlight := fun operation command hflight =>
    h.inFlight operation command ((hsame operation command).mp hflight)
  settled := fun hnone => h.settled fun operation command hflight =>
    hnone operation command ((hsame operation command).mpr hflight)

/-- An operation's row for an entry's mutation is none that is new. -/
theorem inFlight_set {s : State} (hgood : Good s) {operation : Operation} {queue : Queue}
    (hfresh : s.operations.has operation.operationId = false)
    (hfree : s.queue.entries.has operation.operationId = false) {entry : Record}
    (hentry : entry ∈ s.queue.entries.rows) (held : Operation) (command : Command) :
    InFlight ⟨queue, s.operations.set operation⟩ entry held command ↔
      InFlight s entry held command := by
  constructor
  · rintro ⟨hmem, hmutation, hupdate⟩
    rcases Table.mem_set.mp hmem with rfl | ⟨hold, -⟩
    · have hother : held.operationId ≠ entry.entryId := fun hsame =>
        Table.has_eq_false.mp hfree entry hentry hsame.symm
      obtain ⟨row, hrow, hkey, -⟩ := hgood.owned.mutations entry hentry _ hmutation hother
      exact absurd hkey (Table.has_eq_false.mp hfresh row hrow)
    · exact ⟨hold, hmutation, hupdate⟩
  · rintro ⟨hmem, hmutation, hupdate⟩
    exact ⟨(fresh_rows hfresh hfree).1 held hmem, hmutation, hupdate⟩

/-- Compaction keeps the row of a mutation under way. -/
theorem inFlight_filter {s : State} (hgood : Good s) (operationIds : List Id) {entry : Record}
    (hentry : entry ∈ s.queue.entries.rows) (held : Operation) (command : Command) :
    InFlight { s with operations := s.operations.filter fun operation =>
        operation.operationId ∉ operationIds || s.queue.holds.has operation.operationId }
      entry held command ↔ InFlight s entry held command := by
  constructor
  · rintro ⟨hmem, hmutation, hupdate⟩
    exact ⟨(Table.mem_filter.mp hmem).1, hmutation, hupdate⟩
  · rintro ⟨hmem, hmutation, hupdate⟩
    have hnot : command.action ≠ .add := by
      rw [hupdate.2]
      decide
    have hfree := hgood.owned.adds held hmem command hupdate.1 hnot
    have hother : held.operationId ≠ entry.entryId := fun hsame =>
      Table.has_eq_false.mp hfree entry hentry hsame.symm
    have hhold : s.queue.holds.has held.operationId = true := by
      rw [Table.has_eq_true]
      refine ⟨⟨held.operationId, entry.entryId⟩, (hgood.holds _).mpr ⟨entry, hentry, rfl, ?_⟩, rfl⟩
      exact mem_heldOperationIds.mpr (Or.inr ⟨hmutation, hother⟩)
    exact ⟨Table.mem_filter.mpr ⟨hmem, by simp [hhold]⟩, hmutation, hupdate⟩

/-! ### One call -/

/-- What the call makes of the two histories of an entry: the versions it accepts and refuses
itself, and what was there before. -/
structure Histories (s : State) (call : Call) (answer : Answer) (entryId : Id)
    (accepted refused accepted' refused' : Nat → Prop) : Prop where
  accepts : ∀ revision, Adds entryId call answer revision ∨
    Settles Transition.accepts entryId s call answer revision → accepted' revision
  keeps : ∀ revision, accepted revision → (∀ other, ¬(Adds entryId call answer other ∨
    Settles Transition.accepts entryId s call answer other)) → accepted' revision
  refuses : ∀ revision, refused' revision ↔
    Settles Transition.refuses entryId s call answer revision ∨ refused revision

section

variable {s s' : State} {call : Call} {answer : Answer} {entryId : Id}
  {accepted refused accepted' refused' : Nat → Prop}

/-- The call answers no update of the entry and does not add it. -/
def Quiet (entryId : Id) (s : State) (call : Call) (answer : Answer) : Prop :=
  ∀ revision, ¬Adds entryId call answer revision ∧
    ¬Settles Transition.accepts entryId s call answer revision ∧
    ¬Settles Transition.refuses entryId s call answer revision

/-- An answer that saves no entry of the id. -/
theorem quiet_of_answer (h : ∀ entry, answer = .saved (some entry) → entry.entryId ≠ entryId) :
    Quiet entryId s call answer := by
  refine fun revision => ⟨?_, ?_, ?_⟩
  · rintro ⟨_, _, _, _, entry, -, hanswer, hid, -⟩
    exact h entry hanswer hid
  · rintro ⟨_, -, _, _, entry, -, -, -, hanswer, hid, -⟩
    exact h entry hanswer hid
  · rintro ⟨_, -, _, _, entry, -, -, -, hanswer, hid, -⟩
    exact h entry hanswer hid

/-- A call whose transition, if it is one, neither accepts nor refuses. -/
theorem quiet_of_call
    (hadd : ∀ operationId key request session rejected,
      call ≠ .execute operationId key request session rejected)
    (hanswer : ∀ entry operationId transition, answer = .saved (some entry) →
      call = .transition operationId transition →
        transition.accepts = false ∧ transition.refuses = false) :
    Quiet entryId s call answer := by
  refine fun revision => ⟨?_, ?_, ?_⟩
  · rintro ⟨_, _, _, _, _, hcall, -⟩
    exact hadd _ _ _ _ _ hcall
  · rintro ⟨_, -, transition, _, entry, hcall, hkind, -, hsaved, -⟩
    rw [(hanswer entry _ transition hsaved hcall).1] at hkind
    nomatch hkind
  · rintro ⟨_, -, transition, _, entry, hcall, hkind, -, hsaved, -⟩
    rw [(hanswer entry _ transition hsaved hcall).2] at hkind
    nomatch hkind

theorem Histories.of_quiet
    (h : Histories s call answer entryId accepted refused accepted' refused')
    (hquiet : Quiet entryId s call answer) :
    (∀ revision, accepted revision → accepted' revision) ∧
      ∀ revision, refused' revision ↔ refused revision := by
  constructor
  · intro revision haccepted
    refine h.keeps revision haccepted fun other hmade => ?_
    rcases hmade with hadds | hsettles
    · exact (hquiet other).1 hadds
    · exact (hquiet other).2.1 hsettles
  · intro revision
    rw [h.refuses revision]
    exact ⟨fun hrefused => hrefused.resolve_left (hquiet revision).2.2, Or.inr⟩

theorem Presents.of_same {entry : Record} {revision : Nat}
    (h : Presents s refused entry revision)
    (hsame : ∀ revision, refused' revision ↔ refused revision) :
    Presents s refused' entry revision where
  version := h.version
  unrefused := (hsame revision).not.mpr h.unrefused
  inFlight := by
    intro operation command hflight
    obtain ⟨hexpected, hlt, hpushed, hunrefused⟩ := h.inFlight operation command hflight
    exact ⟨hexpected, hlt, hpushed, (hsame _).not.mpr hunrefused⟩
  settled := h.settled

/-- A call that is quiet about an entry it leaves. -/
theorem Told.quiet {entry : Record} (h : Told s accepted refused entry)
    (hhistories : Histories s call answer entryId accepted refused accepted' refused')
    (hquiet : Quiet entryId s call answer)
    (hsame : ∀ operation command, InFlight s' entry operation command ↔
      InFlight s entry operation command) : Told s' accepted' refused' entry := by
  obtain ⟨hkeeps, hrefused⟩ := hhistories.of_quiet hquiet
  constructor
  · intro revision hrev
    exact h.bound revision ((hrefused revision).mp hrev)
  · intro hproof
    obtain ⟨revision, haccepted, hpresents⟩ := h.presents hproof
    exact ⟨revision, hkeeps revision haccepted, (hpresents.of_same hrefused).congr hsame⟩

/-- The admission of a mutation leaves what was accepted last, and an update names it. -/
theorem told_admits {operation : Operation} {command : Command} {entry admitted : Record}
    (hgood : Good s) (hfree : s.queue.entries.has operation.operationId = false)
    (hrequest : operation.request = .native command) (hentry : entry ∈ s.queue.entries.rows)
    (hadmits : Admits command operation.operationId entry admitted)
    (htold : Told s accepted refused entry)
    (hhistories : Histories s call answer entryId accepted refused accepted' refused')
    (hid : entryId = entry.entryId) (hcall : ∃ key request session rejected,
      call = .execute operation.operationId key request session rejected) :
    Told ⟨s.queue.save admitted, s.operations.set operation⟩ accepted' refused' admitted := by
  have hsound := hgood.sound entry hentry
  have hquiet : Quiet entryId s call answer := by
    obtain ⟨key, request, session, rejected, rfl⟩ := hcall
    refine fun revision => ⟨?_, ?_, ?_⟩
    · rintro ⟨_, _, _, _, _, hcall, -⟩
      have hsame : operation.operationId = entryId := by
        injection hcall
      exact Table.has_eq_false.mp hfree entry hentry (hid.symm.trans hsame.symm)
    · rintro ⟨_, -, _, _, _, hcall, -⟩
      nomatch hcall
    · rintro ⟨_, -, _, _, _, hcall, -⟩
      nomatch hcall
  obtain ⟨hkeeps, hrefused⟩ := hhistories.of_quiet hquiet
  have hunder : ∀ held command', InFlight ⟨s.queue.save admitted, s.operations.set operation⟩
      admitted held command' → held = operation ∧ command' = command := by
    rintro held command' ⟨hmem, hmutation, hupdate⟩
    have hkey := Option.some.inj (hmutation.symm.trans hadmits.mutation)
    have hheld := (s.operations.set operation).eq_of_key_eq hmem
      (Table.mem_set.mpr (Or.inl rfl)) hkey
    subst hheld
    exact ⟨rfl, Request.native.inj (hupdate.1.symm.trans hrequest)⟩
  have hidle : ∀ held command', ¬InFlight s entry held command' := by
    rintro held command' ⟨-, hmutation, -⟩
    rw [hadmits.free] at hmutation
    nomatch hmutation
  constructor
  · intro revision hrev
    have hle := htold.bound revision ((hrefused revision).mp hrev)
    rw [hadmits.eq]
    split_ifs
    · rw [List.length_append]
      omega
    · exact hle
  · intro _
    obtain ⟨revision, haccepted, hpresents⟩ := htold.presents (hadmits.unproven hsound)
    have hrevision := hpresents.settled hidle
    have hbound : revision ≤ entry.versions.length := by
      have hmem := hpresents.version
      rw [hsound.revisions, List.mem_range'_1] at hmem
      omega
    have hmoved : command.action = .update → admitted.revision = entry.versions.length + 1 := by
      intro hupdate
      rw [hadmits.eq, if_pos hupdate]
    refine ⟨revision, hkeeps revision haccepted, hadmits.follows.revisions hpresents.version,
      (hrefused revision).not.mpr hpresents.unrefused, ?_, ?_⟩
    · intro held command' hflight
      obtain ⟨rfl, rfl⟩ := hunder held command' hflight
      have hupdate := hflight.2.2.2
      refine ⟨hadmits.expected.trans (congrArg some hrevision), ?_,
        pushedRevision_update hadmits hupdate, ?_⟩
      · rw [hmoved hupdate]
        omega
      · intro hrev
        have hle := htold.bound _ ((hrefused _).mp hrev)
        rw [hmoved hupdate] at hle
        omega
    · intro hnone
      have hother : command.action ≠ .update := fun hupdate =>
        hnone operation command ⟨Table.mem_set.mpr (Or.inl rfl), hadmits.mutation, hrequest, hupdate⟩
      rw [hadmits.eq, if_neg hother]
      exact hrevision

theorem Transition.of_not_ends {transition : Transition} (h : transition.ends = false) :
    transition.accepts = false ∧ transition.refuses = false := by
  cases transition <;> simp_all [Transition.ends, Transition.accepts, Transition.refuses]

theorem Transition.not_refuses {transition : Transition} (h : transition.accepts = true) :
    transition.ends = true ∧ transition.refuses = false := by
  cases transition <;> simp_all [Transition.ends, Transition.accepts, Transition.refuses]

theorem Transition.not_accepts {transition : Transition} (h : transition.refuses = true) :
    transition.ends = true ∧ transition.accepts = false := by
  cases transition <;> simp_all [Transition.ends, Transition.accepts, Transition.refuses]

/-- What a transition of the operation settles for the entry it saves. -/
theorem settles_transition {kind : Transition → Bool} {transition : Transition}
    {operation : Operation} {entry moved : Record} (hoperation : operation ∈ s.operations.rows)
    (hkept : Kept entry moved) (revision : Nat) :
    Settles kind entry.entryId s (.transition operation.operationId transition)
        (.saved (some moved)) revision ↔
      kind transition = true ∧ (∃ command, IsUpdate operation command) ∧
        pushedRevision entry operation.operationId = some revision := by
  constructor
  · rintro ⟨held, hheld, transition', command, saved, hcall, hkind, hupdate, hsaved, -, hpushed⟩
    obtain ⟨hkey, rfl⟩ := Call.transition.inj hcall
    obtain rfl := s.operations.eq_of_key_eq hoperation hheld hkey
    obtain rfl := Option.some.inj (Answer.saved.inj hsaved)
    exact ⟨hkind, ⟨command, hupdate⟩, (pushedRevision_kept hkept _).symm.trans hpushed⟩
  · rintro ⟨hkind, ⟨command, hupdate⟩, hpushed⟩
    exact ⟨operation, hoperation, transition, command, moved, rfl, hkind, hupdate, rfl,
      hkept.entryId, (pushedRevision_kept hkept _).trans hpushed⟩

/-- The command of an update's transition is the update. -/
theorem isUpdate_iff (hgood : Good s) {operation : Operation} {command : Command}
    {entry : Record} (hoperation : operation ∈ s.operations.rows)
    (hcommand : s.queue.command operation.request operation.operationId = some command)
    (hentry : entry ∈ s.queue.entries.rows) (habout : About command operation.operationId entry)
    (howned : entry.mutationOperationId = some operation.operationId) :
    (∃ held, IsUpdate operation held) ↔ command.action = .update := by
  constructor
  · rintro ⟨held, hrequest, hupdate⟩
    rw [hrequest] at hcommand
    simp only [Queue.command, hupdate] at hcommand
    rw [if_pos (by decide)] at hcommand
    rw [← Option.some.inj hcommand]
    exact hupdate
  · intro hupdate
    have hnot : command.action ≠ .add := by
      rw [hupdate]
      decide
    exact ⟨command, (hgood.returns hoperation hcommand hentry habout howned hnot).1, hupdate⟩

/-- An entry that keeps its revision presents what it did, if the same update is in flight. -/
theorem Presents.moved {entry moved : Record} {revision : Nat}
    (h : Presents s refused entry revision) (hkept : Kept entry moved)
    (hrevision : moved.revision = entry.revision)
    (hsame : ∀ operation command, InFlight s' moved operation command ↔
      InFlight s entry operation command) : Presents s' refused moved revision where
  version := hkept.revisions ▸ h.version
  unrefused := h.unrefused
  inFlight := by
    intro operation command hflight
    rw [hrevision, pushedRevision_kept hkept]
    exact h.inFlight operation command ((hsame operation command).mp hflight)
  settled := by
    intro hnone
    rw [hrevision]
    exact h.settled fun operation command hflight =>
      hnone operation command ((hsame operation command).mpr hflight)

/-- A transition of the mutation: an acknowledged update is accepted, and a refused one gives
way to what was accepted before. -/
theorem told_moves {transition : Transition} {operation : Operation} {command : Command}
    {entry moved : Record} (hgood : Good s) (hoperation : operation ∈ s.operations.rows)
    (hcommand : s.queue.command operation.request operation.operationId = some command)
    (hentry : entry ∈ s.queue.entries.rows) (habout : About command operation.operationId entry)
    (howned : entry.mutationOperationId = some operation.operationId)
    (hmoved : Moved command transition entry moved) (htold : Told s accepted refused entry)
    (hhistories : Histories s (.transition operation.operationId transition)
      (.saved (some moved)) entry.entryId accepted refused accepted' refused') :
    Told { s with queue := s.queue.save moved } accepted' refused' moved := by
  have hsound := hgood.sound entry hentry
  have hiff := isUpdate_iff hgood hoperation hcommand hentry habout howned
  have hadds : ∀ revision, ¬Adds entry.entryId (.transition operation.operationId transition)
      (.saved (some moved)) revision := by
    rintro revision ⟨_, _, _, _, _, hcall, -⟩
    nomatch hcall
  have hbound : ∀ revision, pushedRevision entry operation.operationId = some revision →
      revision ≤ entry.versions.length := by
    intro revision hpushed
    obtain ⟨version, hversion, rfl⟩ := Option.map_eq_some_iff.mp hpushed
    have hmem := List.mem_map_of_mem (f := Version.revision)
      (List.mem_reverse.mp (List.mem_of_find?_eq_some hversion))
    rw [hsound.revisions, List.mem_range'_1] at hmem
    omega
  have hlength := hmoved.versions.length_eq
  -- whatever is in flight on the moved entry was so before
  have hbefore : ∀ held command', InFlight { s with queue := s.queue.save moved } moved held
      command' → InFlight s entry held command' ∧ transition.ends = false := by
    rintro held command' ⟨hmem, hmutation, hupdate⟩
    rw [hmoved.mutation] at hmutation
    split_ifs at hmutation with hends
    exact ⟨⟨hmem, hmutation, hupdate⟩, Bool.not_eq_true _ ▸ hends⟩
  constructor
  · intro revision hrev
    rw [← hlength]
    rcases (hhistories.refuses revision).mp hrev with hnow | hold
    · exact hbound revision ((settles_transition hoperation hmoved.toKept revision).mp hnow).2.2
    · exact htold.bound revision hold
  intro hproof
  rw [hmoved.proof] at hproof
  obtain ⟨revision, haccepted, hpresents⟩ := htold.presents hproof
  have hversion : revision ∈ moved.versions.map Version.revision :=
    hmoved.revisions ▸ hpresents.version
  by_cases hupdate : command.action = .update
  · have hnot : command.action ≠ .add := by
      rw [hupdate]
      decide
    have hrequest := (hgood.returns hoperation hcommand hentry habout howned hnot).1
    have hflight : InFlight s entry operation command :=
      ⟨hoperation, howned, hrequest, hupdate⟩
    obtain ⟨hexpected, hlt, hpushed, hunrefused⟩ := hpresents.inFlight operation command hflight
    have hsettles : ∀ kind other, Settles kind entry.entryId s
        (.transition operation.operationId transition) (.saved (some moved)) other ↔
          kind transition = true ∧ entry.revision = other := by
      intro kind other
      rw [settles_transition hoperation hmoved.toKept other, hpushed, Option.some.injEq]
      exact ⟨fun h => ⟨h.1, h.2.2⟩, fun h => ⟨h.1, ⟨command, hrequest, hupdate⟩, h.2⟩⟩
    cases hends : transition.ends with
    | false =>
      obtain ⟨hnoAccept, hnoRefuse⟩ := Transition.of_not_ends hends
      have hquiet : Quiet entry.entryId s (.transition operation.operationId transition)
          (.saved (some moved)) := by
        refine fun other => ⟨hadds other, ?_, ?_⟩
        · rw [hsettles, hnoAccept]
          simp
        · rw [hsettles, hnoRefuse]
          simp
      obtain ⟨hkeeps, hrefused⟩ := hhistories.of_quiet hquiet
      refine ⟨revision, hkeeps revision haccepted,
        (hpresents.of_same hrefused).moved hmoved.toKept ?_ ?_⟩
      · rw [hmoved.revision, hnoRefuse, Bool.and_false]
        rfl
      · intro held command'
        refine ⟨fun hnow => (hbefore held command' hnow).1, fun hold => ?_⟩
        refine ⟨hold.1, ?_, hold.2.2⟩
        rw [hmoved.mutation, hends]
        exact hold.2.1
    | true =>
      have hidle : ∀ held command', ¬InFlight { s with queue := s.queue.save moved } moved held
          command' := by
        intro held command' hnow
        rw [(hbefore held command' hnow).2] at hends
        nomatch hends
      rcases hmoved.answered hends hnot with haccepts | hrefuses
      · -- the update's version is accepted
        have hnoRefuse := (Transition.not_refuses haccepts).2
        refine ⟨entry.revision, hhistories.accepts _ (Or.inr ((hsettles _ _).mpr
          ⟨haccepts, rfl⟩)), hmoved.revisions ▸ hsound.current, ?_,
          fun held command' hnow => absurd hnow (hidle held command'), fun _ => ?_⟩
        · rw [hhistories.refuses, hsettles, hnoRefuse]
          simpa using hunrefused
        · rw [hmoved.revision, hnoRefuse, Bool.and_false]
          rfl
      · -- the revision goes back to what was accepted before
        have hnoAccept := (Transition.not_accepts hrefuses).2
        refine ⟨revision, hhistories.keeps revision haccepted ?_, hversion, ?_,
          fun held command' hnow => absurd hnow (hidle held command'), fun _ => ?_⟩
        · rintro other (hadd | haccept)
          · exact hadds other hadd
          · rw [hsettles, hnoAccept] at haccept
            nomatch haccept.1
        · rw [hhistories.refuses, hsettles]
          rintro (⟨-, hsame⟩ | hold)
          · omega
          · exact hpresents.unrefused hold
        · rw [hmoved.revision, hproof, hexpected, hrefuses]
          simp [hupdate]
  · have hnone : ∀ held command', ¬InFlight s entry held command' := by
      rintro held command' ⟨hmem, hmutation, hheld⟩
      have hkey := Option.some.inj (hmutation.symm.trans howned)
      obtain rfl := s.operations.eq_of_key_eq hmem hoperation hkey
      exact hupdate (hiff.mp ⟨command', hheld⟩)
    have hquiet : Quiet entry.entryId s (.transition operation.operationId transition)
        (.saved (some moved)) := by
      refine fun other => ⟨hadds other, ?_, ?_⟩
      all_goals
        rw [settles_transition hoperation hmoved.toKept, hiff]
        exact fun h => hupdate h.2.1
    obtain ⟨hkeeps, hrefused⟩ := hhistories.of_quiet hquiet
    refine ⟨revision, hkeeps revision haccepted,
      (hpresents.of_same hrefused).moved hmoved.toKept ?_ ?_⟩
    · rw [hmoved.revision]
      simp [hupdate]
    · intro held command'
      exact ⟨fun hnow => (hbefore held command' hnow).1,
        fun hold => absurd hold (hnone held command')⟩

/-- The add of a fresh entry. -/
theorem told_adds {operation : Operation} {session : Option Binding} {rejected : Bool}
    {command : Command} (hfree : s.queue.entries.has operation.operationId = false)
    (hrequest : ∀ native, operation.request = .native native → native.action = .add)
    (horphans : ∀ revision, refused revision →
      s.queue.entries.has operation.operationId = true)
    (hhistories : Histories s (.execute operation.operationId operation.idempotencyKey
      operation.request session rejected) (.saved (some (newEntry command operation.operationId)))
      operation.operationId accepted refused accepted' refused') :
    Told ⟨s.queue.save (newEntry command operation.operationId), s.operations.set operation⟩
      accepted' refused' (newEntry command operation.operationId) := by
  have hnone : ∀ revision, ¬refused' revision := by
    intro revision hrev
    rcases (hhistories.refuses revision).mp hrev with hnow | hold
    · obtain ⟨_, -, _, _, _, hcall, -⟩ := hnow
      cases hcall
    · rw [horphans revision hold] at hfree
      cases hfree
  have hpushed : pushedRevision (newEntry command operation.operationId) operation.operationId =
      some 1 := by
    simp [pushedRevision, newEntry, newVersion]
  constructor
  · exact fun revision hrev => absurd hrev (hnone revision)
  · intro _
    refine ⟨1, hhistories.accepts 1 (Or.inl ⟨_, _, _, _, _, rfl, rfl, rfl, hpushed⟩),
      List.mem_singleton.mpr rfl, hnone 1, ?_, fun _ => rfl⟩
    rintro held command' ⟨hmem, hmutation, hnative, hupdate⟩
    have hkey := Option.some.inj hmutation
    have hheld := (s.operations.set operation).eq_of_key_eq hmem
      (Table.mem_set.mpr (Or.inl rfl)) hkey.symm
    subst hheld
    rw [hrequest command' hnative] at hupdate
    cases hupdate

end

/-- **One call keeps what the histories say of every entry.** -/
theorem Stepped.told {s s' : State} {call : Call} {answer : Answer}
    {accepted refused accepted' refused' : Id → Nat → Prop}
    (hstepped : Stepped s call s' answer) (hgood : Good s)
    (hhistories : ∀ id, Histories s call answer id (accepted id) (refused id) (accepted' id)
      (refused' id))
    (horphans : ∀ id revision, refused id revision → s.queue.entries.has id = true)
    (htold : ∀ entry ∈ s.queue.entries.rows,
      Told s (accepted entry.entryId) (refused entry.entryId) entry) :
    ∀ entry ∈ s'.queue.entries.rows,
      Told s' (accepted' entry.entryId) (refused' entry.entryId) entry := by
  intro entry hentry
  cases hstepped with
  | stays _ _ hanswer =>
    exact (htold entry hentry).quiet (hhistories _)
      (quiet_of_answer fun _ hsaved => absurd hsaved (hanswer _)) fun _ _ => Iff.rfl
  | finds _ saved hadd hsaved =>
    refine (htold entry hentry).quiet (hhistories _) (quiet_of_call hadd ?_) fun _ _ => Iff.rfl
    intro found operationId transition hfound hcall
    rw [(hsaved found (Answer.saved.inj hfound) operationId transition hcall).1]
    exact ⟨rfl, rfl⟩
  | records operation session rejected hfresh hfree =>
    exact (htold entry hentry).quiet (hhistories _)
      (quiet_of_answer fun _ hsaved => nomatch Answer.saved.inj hsaved)
      (inFlight_set hgood hfresh hfree hentry)
  | adds operation session rejected command hfresh hfree hrequest =>
    rcases Table.mem_set.mp hentry with rfl | ⟨hold, hne⟩
    · exact told_adds hfree hrequest (horphans _) (hhistories _)
    · refine (htold entry hold).quiet (hhistories _) (quiet_of_answer fun saved hsaved => ?_)
        (inFlight_set hgood hfresh hfree hold)
      rw [← Option.some.inj (Answer.saved.inj hsaved)]
      exact hne.symm
  | admits operation session rejected command held admitted hfresh hfree hrequest haction hheld
      hid hadmits =>
      rcases Table.mem_set.mp hentry with rfl | ⟨hold, hne⟩
      · rw [hadmits.entryId]
        exact told_admits hgood hfree hrequest hheld hadmits (htold held hheld) (hhistories _) rfl
          ⟨_, _, _, _, rfl⟩
      · refine (htold entry hold).quiet (hhistories _) (quiet_of_answer fun saved hsaved => ?_)
          (inFlight_set hgood hfresh hfree hold)
        rw [← Option.some.inj (Answer.saved.inj hsaved)]
        exact hne.symm
  | proves _ held proven proof hcall hheld hproves =>
    rcases Table.mem_set.mp hentry with rfl | ⟨hold, hne⟩
    · rw [hproves.follows.entryId]
      have hquiet : Quiet held.entryId s call (.saved (some entry)) := by
        refine quiet_of_call ?_ ?_
        · rintro _ _ _ _ _ rfl
          rcases hcall with ⟨_, _, hcall⟩ | ⟨_, hcall⟩
          · nomatch hcall
          · nomatch hcall
        · rintro _ operationId transition - rfl
          rcases hcall with ⟨_, candidate, hcall⟩ | ⟨_, hcall⟩
          · rw [(Call.transition.inj hcall).2]
            exact ⟨rfl, rfl⟩
          · nomatch hcall
      constructor
      · intro revision hrev
        have hle := (htold held hheld).bound revision
          ((((hhistories held.entryId).of_quiet hquiet).2 revision).mp hrev)
        rw [hproves.eq]
        exact hle
      · intro hproof
        rw [hproves.eq] at hproof
        nomatch hproof
    · refine (htold entry hold).quiet (hhistories _) (quiet_of_answer fun saved hsaved => ?_)
        fun _ _ => Iff.rfl
      rw [← Option.some.inj (Answer.saved.inj hsaved)]
      exact hne.symm
  | moves transition operation command held moved hoperation hcommand hheld habout howned hmoved =>
    rcases Table.mem_set.mp hentry with rfl | ⟨hold, hne⟩
    · rw [hmoved.entryId]
      exact told_moves hgood hoperation hcommand hheld habout howned hmoved (htold held hheld)
        (hhistories _)
    · refine (htold entry hold).quiet (hhistories _) (quiet_of_answer fun saved hsaved => ?_)
        fun _ _ => Iff.rfl
      rw [← Option.some.inj (Answer.saved.inj hsaved)]
      exact hne.symm
  | compacts operationIds =>
    exact (htold entry hentry).quiet (hhistories _)
      (quiet_of_answer fun _ hsaved => nomatch hsaved) (inFlight_filter hgood operationIds hentry)
  | reopens =>
    exact (htold entry hentry).quiet (hhistories _)
      (quiet_of_answer fun _ hsaved => nomatch hsaved) fun _ _ => Iff.rfl

/-- A refused update is one of an entry that is there. -/
theorem Stepped.orphans {s s' : State} {call : Call} {answer : Answer} {entryId : Id}
    {revision : Nat} (hstepped : Stepped s call s' answer)
    (h : Settles Transition.refuses entryId s call answer revision) :
    s'.queue.entries.has entryId = true := by
  obtain ⟨operation, hoperation, transition, command, entry, hcall, hkind, hupdate, hanswer, rfl,
    hpushed⟩ := h
  cases hstepped with
  | stays _ _ hnone => exact absurd hanswer (hnone _)
  | finds _ saved hadd hsaved =>
    have hremoved := (hsaved entry (Answer.saved.inj hanswer) _ transition hcall).1
    rw [hremoved] at hkind
    nomatch hkind
  | proves _ held proven proof hproof hheld hproves =>
    rcases hproof with ⟨_, candidate, hproof⟩ | ⟨_, hproof⟩
    · rw [hcall] at hproof
      rw [(Call.transition.inj hproof).2] at hkind
      nomatch hkind
    · rw [hcall] at hproof
      nomatch hproof
  | moves transition operation command held moved =>
    rw [← Option.some.inj (Answer.saved.inj hanswer)]
    exact Table.has_eq_true.mpr ⟨moved, Table.mem_set.mpr (Or.inl rfl), rfl⟩
  | _ => nomatch hcall

/-! ### Runs -/

section

variable (inputMatches : Version → List Json → Bool)

theorem after_told (calls : List Call) :
    (∀ entry ∈ (after (step inputMatches) State.start calls).queue.entries.rows,
      Told (after (step inputMatches) State.start calls)
        (Latest (step inputMatches) (Accepts inputMatches entry.entryId) State.start calls)
        (Ever (step inputMatches) (Refuses inputMatches entry.entryId) State.start calls) entry) ∧
    ∀ id revision, Ever (step inputMatches) (Refuses inputMatches id) State.start calls revision →
      (after (step inputMatches) State.start calls).queue.entries.has id = true := by
  induction calls using List.reverseRec with
  | nil =>
    constructor
    · intro entry hentry
      nomatch hentry
    · intro id revision hever
      exact absurd hever (not_ever_nil _ _)
  | append_singleton calls call ih =>
    obtain ⟨htold, horphans⟩ := ih
    have hgood := after_good inputMatches calls
    have hstepped := step_stepped inputMatches
      (after (step inputMatches) State.start calls) call
    have hhistories : ∀ id, Histories (after (step inputMatches) State.start calls) call
        (step inputMatches (after (step inputMatches) State.start calls) call).2 id
        (Latest (step inputMatches) (Accepts inputMatches id) State.start calls)
        (Ever (step inputMatches) (Refuses inputMatches id) State.start calls)
        (Latest (step inputMatches) (Accepts inputMatches id) State.start (calls ++ [call]))
        (Ever (step inputMatches) (Refuses inputMatches id) State.start (calls ++ [call])) := by
      intro id
      constructor
      · exact fun revision hmade => latest_of_made hmade
      · exact fun revision hlatest hnone => hlatest.concat hnone
      · exact fun revision => ever_concat _ _ _ _
    rw [Runs.after_concat]
    constructor
    · exact hstepped.told hgood hhistories horphans htold
    · intro id revision hever
      rcases (ever_concat _ _ _ _).mp hever with hnow | hold
      · exact hstepped.orphans hnow
      · obtain ⟨entry, hentry, hid⟩ := Table.has_eq_true.mp (horphans id revision hold)
        obtain ⟨entry', hentry', hfollows⟩ := hstepped.continues entry hentry
        exact Table.has_eq_true.mpr ⟨entry', hentry', hfollows.entryId.trans hid⟩

/-- **The native queue presents only what was accepted.**  In every state a run of calls
reaches:

* an entry with no proof and no mutation under way has, at its revision, the version of its
  add or of its update that was acknowledged last, and no update of that version was ever
  refused;
* the table of held operation ids is the union of the entries' own, and a reopen rebuilds the
  same table. -/
theorem presents_accepted (calls : List Call) :
    (∀ entry ∈ (after (step inputMatches) State.start calls).queue.entries.rows,
      entry.proof = none → entry.mutationOperationId = none →
        (∃ version ∈ entry.versions, version.revision = entry.revision) ∧
        Latest (step inputMatches) (Accepts inputMatches entry.entryId) State.start calls
          entry.revision ∧
        ¬Ever (step inputMatches) (Refuses inputMatches entry.entryId) State.start calls
          entry.revision) ∧
    (∀ operationId,
      (after (step inputMatches) State.start calls).queue.holds.has operationId = true ↔
        ∃ entry ∈ (after (step inputMatches) State.start calls).queue.entries.rows,
          operationId ∈ heldOperationIds entry) ∧
    ∀ hold, hold ∈ (after (step inputMatches) State.start calls).queue.rebuild.holds.rows ↔
      hold ∈ (after (step inputMatches) State.start calls).queue.holds.rows := by
  have hgood := after_good inputMatches calls
  refine ⟨?_, ?_, ?_⟩
  · intro entry hentry hproof hmutation
    obtain ⟨revision, hlatest, hpresents⟩ :=
      ((after_told inputMatches calls).1 entry hentry).presents hproof
    have hrevision : entry.revision = revision := by
      apply hpresents.settled
      rintro operation command ⟨-, hflight, -⟩
      rw [hmutation] at hflight
      nomatch hflight
    obtain ⟨version, hversion, hsame⟩ := List.mem_map.mp (hgood.sound entry hentry).current
    rw [hrevision]
    exact ⟨⟨version, hversion, hsame.trans hrevision⟩, hlatest, hpresents.unrefused⟩
  · intro operationId
    rw [Table.has_eq_true]
    constructor
    · rintro ⟨hold, hmem, rfl⟩
      obtain ⟨entry, hentry, -, hheld⟩ := (hgood.holds hold).mp hmem
      exact ⟨entry, hentry, hheld⟩
    · rintro ⟨entry, hentry, hheld⟩
      exact ⟨⟨operationId, entry.entryId⟩,
        (hgood.holds _).mpr ⟨entry, hentry, rfl, hheld⟩, rfl⟩
  · intro hold
    rw [holdsMatch_rebuild hgood.owned hold, hgood.holds hold]
    rfl

end

end Delegatus.NativeQueue
