import Delegatus.NativeQueueJournal

/-!
# Runs of native queue entries

`step_stepped` says once what a call of the runtime journal does to the native queue.  From
it: every operation id that an entry waits for names a row of `operations` that mutates that
entry (`Owned`), so the holds are those of the entries and a reopen finds the same; every
entry stays sound, and follows what it was.
-/

namespace Delegatus.NativeQueue

open JsonText (Json)
open Runs (after answer after_invariant after_related_of)

/-! ### What one call does -/

/-- What one call does. -/
inductive Stepped (s : State) : Call → State → Answer → Prop
  | stays (call : Call) (answer : Answer) (hanswer : ∀ entry, answer ≠ .saved entry) :
    Stepped s call s answer
  /-- A call that names no entry, a removal confirmed, or a replayed proof. -/
  | finds (call : Call) (saved : Option Record)
    (hadd : ∀ operationId key request session rejected,
      call ≠ .execute operationId key request session rejected)
    (hsaved : ∀ entry, saved = some entry → ∀ operationId transition,
      call = .transition operationId transition →
      transition = .removed ∧ entry.mutationOperationId = none) :
    Stepped s call s (.saved saved)
  | records (operation : Operation) (session : Option Binding) (rejected : Bool)
    (hfresh : s.operations.has operation.operationId = false)
    (hfree : s.queue.entries.has operation.operationId = false) :
    Stepped s (.execute operation.operationId operation.idempotencyKey operation.request session
      rejected) { s with operations := s.operations.set operation } (.saved none)
  | adds (operation : Operation) (session : Option Binding) (rejected : Bool) (command : Command)
    (hfresh : s.operations.has operation.operationId = false)
    (hfree : s.queue.entries.has operation.operationId = false)
    (hrequest : ∀ native, operation.request = .native native → native.action = .add) :
    Stepped s (.execute operation.operationId operation.idempotencyKey operation.request session
      rejected)
      ⟨s.queue.save (newEntry command operation.operationId), s.operations.set operation⟩
      (.saved (some (newEntry command operation.operationId)))
  | admits (operation : Operation) (session : Option Binding) (rejected : Bool)
    (command : Command) (entry admitted : Record)
    (hfresh : s.operations.has operation.operationId = false)
    (hfree : s.queue.entries.has operation.operationId = false)
    (hrequest : operation.request = .native command) (haction : command.action ≠ .add)
    (hentry : entry ∈ s.queue.entries.rows) (hid : truthy command.entryId = some entry.entryId)
    (hadmits : Admits command operation.operationId entry admitted) :
    Stepped s (.execute operation.operationId operation.idempotencyKey operation.request session
      rejected) ⟨s.queue.save admitted, s.operations.set operation⟩ (.saved (some admitted))
  | proves (call : Call) (entry proven : Record) (proof : Proof)
    (hcall : (∃ operationId candidate, call = .transition operationId (.proven candidate)) ∨
      ∃ request, call = .settleCompacted request)
    (hentry : entry ∈ s.queue.entries.rows) (hproves : Proves proof entry proven) :
    Stepped s call { s with queue := s.queue.save proven } (.saved (some proven))
  | moves (transition : Transition) (operation : Operation) (command : Command)
    (entry moved : Record) (hoperation : operation ∈ s.operations.rows)
    (hcommand : s.queue.command operation.request operation.operationId = some command)
    (hentry : entry ∈ s.queue.entries.rows) (habout : About command operation.operationId entry)
    (howned : entry.mutationOperationId = some operation.operationId)
    (hmoved : Moved command transition entry moved) :
    Stepped s (.transition operation.operationId transition)
      { s with queue := s.queue.save moved } (.saved (some moved))
  | compacts (operationIds : List Id) :
    Stepped s (.compact operationIds)
      { s with operations := s.operations.filter fun operation =>
        operation.operationId ∉ operationIds || s.queue.holds.has operation.operationId } .done
  | reopens : Stepped s .reopen { s with queue := s.queue.rebuild } .done

/-- The command at an admission is the request's own, or the add that a `send` becomes. -/
theorem admission_action {request : Request} {session : Option Binding} {command : Command}
    (h : nativeCommandAtAdmission request session = some command) :
    request = .native command ∨ (command.action = .add ∧ ∃ message, request = .send message) := by
  cases request with
  | native native =>
    obtain rfl := Option.some.inj h
    exact Or.inl rfl
  | send message =>
    simp only [nativeCommandAtAdmission] at h
    split_ifs at h
    obtain ⟨binding, -, rfl⟩ := Option.map_eq_some_iff.mp h
    exact Or.inr ⟨rfl, message, rfl⟩
  | other conversationId => nomatch h

theorem execute_stepped (s : State) (operation : Operation) (session : Option Binding)
    (rejected : Bool) :
    Stepped s (.execute operation.operationId operation.idempotencyKey operation.request session
      rejected) (execute s operation session rejected).1
      (execute s operation session rejected).2 := by
  unfold execute
  split
  · exact .stays _ _ (fun _ => by simp)
  split
  · exact .stays _ _ (fun _ => by simp)
  case isFalse hfresh =>
    split
    · exact .stays _ _ (fun _ => by simp)
    case isFalse hfree =>
      rw [Bool.not_eq_true] at hfresh hfree
      simp only
      split
      case h_1 => exact .records operation session rejected hfresh hfree
      case h_2 command hcommand =>
        split
        · exact .records operation session rejected hfresh hfree
        split
        case h_1 => exact .stays _ _ (fun _ => by simp)
        case h_2 saved queue hadmit =>
          rcases admit_ok hadmit with ⟨rfl, rfl⟩ | ⟨hadd, rfl, rfl⟩ |
            ⟨entry, hentry, admitted, haction, hid, hadmits, rfl, rfl⟩
          · exact .records operation session rejected hfresh hfree
          · refine .adds operation session rejected command hfresh hfree ?_
            intro native hnative
            rcases admission_action hcommand with hrequest | ⟨-, message, hrequest⟩
            · rw [hrequest] at hnative
              exact (Request.native.inj hnative) ▸ hadd
            · rw [hrequest] at hnative
              cases hnative
          · rcases admission_action hcommand with hrequest | ⟨hadd, -⟩
            · exact .admits operation session rejected command entry admitted hfresh hfree hrequest
                haction hentry hid hadmits
            · exact absurd hadd haction

/-- **Every call does one of these.** -/
theorem step_stepped (inputMatches : Version → List Json → Bool) (s : State) (call : Call) :
    Stepped s call (step inputMatches s call).1 (step inputMatches s call).2 := by
  cases call with
  | execute operationId key request session rejected =>
    exact execute_stepped s ⟨operationId, key, request⟩ session rejected
  | transition operationId transition =>
    simp only [step]
    split
    case h_1 => exact .stays _ _ (fun _ => by simp)
    case h_2 operation hoperation =>
      obtain ⟨hmem, rfl⟩ := Table.get?_eq_some.mp hoperation
      split
      case h_1 => exact .stays _ _ (fun _ => by simp)
      case h_2 command hcommand =>
        split
        case h_1 => exact .stays _ _ (fun _ => by simp)
        case h_2 saved queue htransition =>
          rcases transition_ok htransition with ⟨rfl, rfl⟩ | ⟨entry, hentry, habout, hcase⟩
          · exact .finds _ none (fun _ _ _ _ _ => by simp) (fun _ hnone => by simp at hnone)
          · rcases hcase with ⟨rfl, hfree, rfl, rfl⟩ |
              ⟨candidate, proven, proof, rfl, hproves, rfl, rfl⟩ |
              ⟨moved, howned, hmoved, rfl, rfl⟩
            · refine .finds _ (some entry) (fun _ _ _ _ _ => by simp) ?_
              intro found hfound other transition htransition
              obtain rfl := Option.some.inj hfound
              exact ⟨(Call.transition.inj htransition).2.symm, hfree⟩
            · exact .proves _ entry proven proof (Or.inl ⟨_, candidate, rfl⟩) hentry hproves
            · exact .moves transition operation command entry moved hmem hcommand hentry habout
                howned hmoved
  | settleCompacted request =>
    simp only [step]
    split
    · exact .stays _ _ (fun _ => by simp)
    split
    case h_1 => exact .stays _ _ (fun _ => by simp)
    case h_2 saved replayed queue hprove =>
      obtain ⟨entry, hentry, hcase⟩ := proveCompacted_ok hprove
      rcases hcase with ⟨rfl, rfl⟩ | ⟨proof, hproves, rfl⟩
      · refine .finds _ _ (fun _ _ _ _ _ => by simp) ?_
        intro _ _ operationId transition hcall
        cases hcall
      · exact .proves _ entry saved proof (Or.inr ⟨request, rfl⟩) hentry hproves
  | compact operationIds => exact .compacts operationIds
  | reopen => exact .reopens

/-! ### Who holds an operation id -/

/-- The request is a command on the entry that is no add, and an update's refusal returns to
one of the entry's versions. -/
def Mutates (request : Request) (entry : Record) : Prop :=
  ∃ command, request = .native command ∧ command.action ≠ .add ∧
    truthy command.entryId = some entry.entryId ∧
    (command.action = .update → ∃ revision, command.expectedRevision = some revision ∧
      revision ∈ entry.versions.map Version.revision)

/-- Every mutation under way but an add has its operation's row, and no row of such a
mutation has the id of an entry. -/
structure Owned (s : State) : Prop where
  mutations : ∀ entry ∈ s.queue.entries.rows, ∀ mutation,
    entry.mutationOperationId = some mutation → mutation ≠ entry.entryId →
      ∃ operation ∈ s.operations.rows, operation.operationId = mutation ∧
        Mutates operation.request entry
  adds : ∀ operation ∈ s.operations.rows, ∀ command, operation.request = .native command →
    command.action ≠ .add → s.queue.entries.has operation.operationId = false

theorem mem_heldOperationIds {entry : Record} {operationId : Id} :
    operationId ∈ heldOperationIds entry ↔
      (entry.state.settled = false ∧ operationId = entry.entryId) ∨
        (entry.mutationOperationId = some operationId ∧ operationId ≠ entry.entryId) := by
  unfold heldOperationIds
  rw [List.mem_append, Option.mem_toList]
  constructor
  · rintro (hown | hmutation)
    · split_ifs at hown with hsettled
      · simp at hown
      · exact Or.inl ⟨Bool.not_eq_true _ ▸ hsettled, List.mem_singleton.mp hown⟩
    · obtain ⟨hsome, hother⟩ := Option.filter_eq_some_iff.mp hmutation
      exact Or.inr ⟨hsome, of_decide_eq_true hother⟩
  · rintro (⟨hunsettled, rfl⟩ | ⟨hsome, hother⟩)
    · exact Or.inl (by simp [hunsettled])
    · exact Or.inr (Option.filter_eq_some_iff.mpr ⟨hsome, decide_eq_true hother⟩)

/-- **No two entries wait for one operation.** -/
theorem Owned.unique {s : State} (h : Owned s) {entry entry' : Record}
    (hentry : entry ∈ s.queue.entries.rows) (hentry' : entry' ∈ s.queue.entries.rows)
    {operationId : Id} (hheld : operationId ∈ heldOperationIds entry)
    (hheld' : operationId ∈ heldOperationIds entry') : entry = entry' := by
  -- an entry's own id is no mutation of another one
  have hown : ∀ held ∈ s.queue.entries.rows, ∀ other ∈ s.queue.entries.rows,
      operationId = held.entryId → other.mutationOperationId = some operationId →
        operationId = other.entryId := by
    intro held hmem other hother hid hmutation
    by_contra hne
    obtain ⟨operation, hoperation, hkey, command, hrequest, haction, -⟩ :=
      h.mutations other hother operationId hmutation hne
    have hfree := h.adds operation hoperation command hrequest haction
    exact Table.has_eq_false.mp hfree held hmem (hid.symm.trans hkey.symm)
  rcases mem_heldOperationIds.mp hheld with ⟨-, hid⟩ | ⟨hmutation, hother⟩
  · rcases mem_heldOperationIds.mp hheld' with ⟨-, hid'⟩ | ⟨hmutation', hother'⟩
    · exact s.queue.entries.eq_of_key_eq hentry hentry' (hid.symm.trans hid')
    · exact absurd (hown entry hentry entry' hentry' hid hmutation') hother'
  · rcases mem_heldOperationIds.mp hheld' with ⟨-, hid'⟩ | ⟨hmutation', hother'⟩
    · exact absurd (hown entry' hentry' entry hentry hid' hmutation) hother
    · obtain ⟨operation, hoperation, hkey, command, hrequest, -, hid, -⟩ :=
        h.mutations entry hentry operationId hmutation hother
      obtain ⟨operation', hoperation', hkey', command', hrequest', -, hid', -⟩ :=
        h.mutations entry' hentry' operationId hmutation' hother'
      obtain rfl := s.operations.eq_of_key_eq hoperation hoperation' (hkey.trans hkey'.symm)
      obtain rfl := Request.native.inj (hrequest.symm.trans hrequest')
      exact s.queue.entries.eq_of_key_eq hentry hentry' (Option.some.inj (hid.symm.trans hid'))

/-- The hold is one of an entry. -/
def HeldBy (entries : Table Record.entryId) (hold : Hold) : Prop :=
  ∃ entry ∈ entries.rows, hold.entryId = entry.entryId ∧
    hold.operationId ∈ heldOperationIds entry

/-- The holds are those of the entries. -/
def HoldsMatch (q : Queue) : Prop := ∀ hold, hold ∈ q.holds.rows ↔ HeldBy q.entries hold

/-- One operation id has one hold. -/
theorem Owned.hold_unique {s : State} (h : Owned s) {hold hold' : Hold}
    (hheld : HeldBy s.queue.entries hold) (hheld' : HeldBy s.queue.entries hold')
    (hkey : hold.operationId = hold'.operationId) : hold = hold' := by
  obtain ⟨entry, hentry, hid, hmem⟩ := hheld
  obtain ⟨entry', hentry', hid', hmem'⟩ := hheld'
  rw [hkey] at hmem
  obtain rfl := h.unique hentry hentry' hmem hmem'
  cases hold
  cases hold'
  simp_all

/-- What `save` leaves holds those of the entries, if the entries wait for different ids. -/
theorem holdsMatch_save {q : Queue} {operations : Table Operation.operationId} {entry : Record}
    (hholds : HoldsMatch q) (howned : Owned ⟨q.save entry, operations⟩) :
    HoldsMatch (q.save entry) := by
  have hmem : ∀ hold : Hold,
      (hold ∈ (q.holds.filter fun hold => hold.entryId ≠ entry.entryId).rows ∨
        hold ∈ (heldOperationIds entry).map fun operationId =>
          (⟨operationId, entry.entryId⟩ : Hold)) ↔ HeldBy (q.save entry).entries hold := by
    intro hold
    rw [Table.mem_filter, decide_eq_true_eq, hholds hold, List.mem_map]
    constructor
    · rintro (⟨⟨other, hother, hid, hheld⟩, hne⟩ | ⟨operationId, hheld, rfl⟩)
      · exact ⟨other, Table.mem_set.mpr (Or.inr ⟨hother, hid ▸ hne⟩), hid, hheld⟩
      · exact ⟨entry, Table.mem_set.mpr (Or.inl rfl), rfl, hheld⟩
    · rintro ⟨other, hother, hid, hheld⟩
      rcases Table.mem_set.mp hother with rfl | ⟨hold', hne⟩
      · exact Or.inr ⟨hold.operationId, hheld, by rw [← hid]⟩
      · exact Or.inl ⟨⟨other, hold', hid, hheld⟩, hid ▸ hne⟩
  intro hold
  rw [← hmem hold]
  apply Table.mem_foldl_insertOrIgnore
  intro a b ha hb hkey
  exact howned.hold_unique ((hmem a).mp ha) ((hmem b).mp hb) hkey

/-- A reopen finds the same holds. -/
theorem holdsMatch_rebuild {s : State} (howned : Owned s) : HoldsMatch s.queue.rebuild := by
  have hmem : ∀ hold : Hold, (hold ∈ (Table.empty : Table Hold.operationId).rows ∨
        hold ∈ ((s.queue.entries.rows.filter fun entry => !entry.state.settled).map fun entry =>
          (⟨entry.entryId, entry.entryId⟩ : Hold)) ++
          s.queue.entries.rows.flatMap fun entry =>
            (entry.mutationOperationId.filter (· ≠ entry.entryId)).toList.map fun operationId =>
              (⟨operationId, entry.entryId⟩ : Hold)) ↔ HeldBy s.queue.entries hold := by
    intro hold
    rw [Table.empty_rows, List.mem_append, List.mem_map, List.mem_flatMap]
    constructor
    · rintro (hnil | ⟨entry, hentry, rfl⟩ | ⟨entry, hentry, hmutation⟩)
      · nomatch hnil
      · obtain ⟨hmem, hunsettled⟩ := List.mem_filter.mp hentry
        refine ⟨entry, hmem, rfl, mem_heldOperationIds.mpr (Or.inl ⟨?_, rfl⟩)⟩
        simpa using hunsettled
      · obtain ⟨operationId, hsome, rfl⟩ := List.mem_map.mp hmutation
        obtain ⟨hsome, hother⟩ := Option.filter_eq_some_iff.mp (Option.mem_toList.mp hsome)
        exact ⟨entry, hentry, rfl,
          mem_heldOperationIds.mpr (Or.inr ⟨hsome, of_decide_eq_true hother⟩)⟩
    · rintro ⟨entry, hentry, hid, hheld⟩
      right
      rcases mem_heldOperationIds.mp hheld with ⟨hunsettled, hown⟩ | ⟨hsome, hother⟩
      · refine Or.inl ⟨entry, List.mem_filter.mpr ⟨hentry, by simp [hunsettled]⟩, ?_⟩
        cases hold with
        | mk operationId entryId =>
          simp only at hown hid
          rw [hown, hid]
      · refine Or.inr ⟨entry, hentry, List.mem_map.mpr ⟨hold.operationId, ?_, by rw [← hid]⟩⟩
        exact Option.mem_toList.mpr (Option.filter_eq_some_iff.mpr ⟨hsome, decide_eq_true hother⟩)
  intro hold
  change _ ↔ HeldBy s.queue.entries hold
  rw [← hmem hold]
  apply Table.mem_foldl_insertOrIgnore
  intro a b ha hb hkey
  exact howned.hold_unique ((hmem a).mp ha) ((hmem b).mp hb) hkey

/-! ### Invariants -/

/-- What holds between two calls. -/
structure Good (s : State) : Prop where
  sound : ∀ entry ∈ s.queue.entries.rows, Sound entry
  owned : Owned s
  holds : HoldsMatch s.queue

theorem start_good : Good State.start where
  sound := fun _ h => by simp [State.start] at h
  owned := ⟨fun _ h => by simp [State.start] at h, fun _ h => by simp [State.start] at h⟩
  holds := by
    intro hold
    simp [State.start, HeldBy]

theorem Follows.revisions {entry moved : Record} (h : Follows entry moved) {revision : Nat}
    (hrevision : revision ∈ entry.versions.map Version.revision) :
    revision ∈ moved.versions.map Version.revision := by
  obtain ⟨version, hversion, rfl⟩ := List.mem_map.mp hrevision
  obtain ⟨version', hversion', hprepared⟩ := h.versions version hversion
  exact List.mem_map.mpr ⟨version', hversion', hprepared.revision⟩

theorem Mutates.follows {request : Request} {entry moved : Record} (h : Mutates request entry)
    (hfollows : Follows entry moved) : Mutates request moved := by
  obtain ⟨command, hrequest, haction, hid, hreturns⟩ := h
  refine ⟨command, hrequest, haction, hid.trans (by rw [hfollows.entryId]), ?_⟩
  intro hupdate
  obtain ⟨revision, hexpected, hmem⟩ := hreturns hupdate
  exact ⟨revision, hexpected, hfollows.revisions hmem⟩

/-- Saving what follows an entry, with rows added, keeps what the ids name. -/
theorem Owned.save {s : State} (h : Owned s) {entry moved : Record}
    {operations : Table Operation.operationId} (hentry : entry ∈ s.queue.entries.rows)
    (hfollows : Follows entry moved)
    (hrows : ∀ operation ∈ s.operations.rows, operation ∈ operations.rows)
    (hnew : ∀ operation ∈ operations.rows, operation ∈ s.operations.rows ∨
      s.queue.entries.has operation.operationId = false)
    (hmutation : ∀ mutation, moved.mutationOperationId = some mutation →
      entry.mutationOperationId = some mutation ∨
        ∃ operation ∈ operations.rows, operation.operationId = mutation ∧
          Mutates operation.request entry) :
    Owned ⟨s.queue.save moved, operations⟩ where
  mutations := by
    intro held hheld mutation hmut hother
    rcases Table.mem_set.mp hheld with rfl | ⟨hold, -⟩
    · rw [hfollows.entryId] at hother
      rcases hmutation mutation hmut with hold | ⟨operation, hoperation, hkey, hmutates⟩
      · obtain ⟨operation, hoperation, hkey, hmutates⟩ :=
          h.mutations entry hentry mutation hold hother
        exact ⟨operation, hrows operation hoperation, hkey, hmutates.follows hfollows⟩
      · exact ⟨operation, hoperation, hkey, hmutates.follows hfollows⟩
    · obtain ⟨operation, hoperation, hkey, hmutates⟩ :=
        h.mutations held hold mutation hmut hother
      exact ⟨operation, hrows operation hoperation, hkey, hmutates⟩
  adds := by
    intro operation hoperation command hrequest haction
    have hfree : s.queue.entries.has operation.operationId = false := by
      rcases hnew operation hoperation with hold | hfree
      · exact h.adds operation hold command hrequest haction
      · exact hfree
    rw [Table.has_eq_false] at hfree ⊢
    intro held hheld
    rcases Table.mem_set.mp hheld with rfl | ⟨hold, -⟩
    · rw [hfollows.entryId]
      exact hfree entry hentry
    · exact hfree held hold

/-- What a save of a followed entry keeps. -/
theorem Good.save {s : State} (h : Good s) {moved : Record}
    {operations : Table Operation.operationId} (hsound : Sound moved)
    (howned : Owned ⟨s.queue.save moved, operations⟩) : Good ⟨s.queue.save moved, operations⟩ where
  sound := by
    intro held hheld
    rcases Table.mem_set.mp hheld with rfl | ⟨hold, -⟩
    · exact hsound
    · exact h.sound held hold
  owned := howned
  holds := holdsMatch_save h.holds howned

/-- The mutation of a transition that is about its entry. -/
theorem Good.returns {s : State} (h : Good s) {operation : Operation} {command : Command}
    {entry : Record} (hoperation : operation ∈ s.operations.rows)
    (hcommand : s.queue.command operation.request operation.operationId = some command)
    (hentry : entry ∈ s.queue.entries.rows) (habout : About command operation.operationId entry)
    (howned : entry.mutationOperationId = some operation.operationId)
    (haction : command.action ≠ .add) :
    operation.request = .native command ∧ operation.operationId ≠ entry.entryId ∧
      (command.action = .update → ∃ revision, command.expectedRevision = some revision ∧
        revision ∈ entry.versions.map Version.revision) := by
  have hrequest : operation.request = .native command := by
    cases hrequest : operation.request with
    | native native =>
      rw [hrequest] at hcommand
      simp only [Queue.command] at hcommand
      split at hcommand
      · rw [Option.some.inj hcommand]
      case isFalse hadd =>
        split at hcommand
        · rw [Option.some.inj hcommand]
        · exact absurd ((Option.some.inj hcommand) ▸ not_not.mp hadd) haction
    | send message =>
      rw [hrequest] at hcommand
      obtain ⟨held, -, rfl⟩ := Option.map_eq_some_iff.mp hcommand
      exact absurd rfl haction
    | other conversationId =>
      rw [hrequest] at hcommand
      nomatch hcommand
  have hne : operation.operationId ≠ entry.entryId := by
    intro hsame
    have hfree := h.owned.adds operation hoperation command hrequest haction
    exact Table.has_eq_false.mp hfree entry hentry hsame.symm
  refine ⟨hrequest, hne, ?_⟩
  obtain ⟨other, hother, hkey, found, hfound, -, -, hreturns⟩ :=
    h.owned.mutations entry hentry _ howned hne
  obtain rfl := s.operations.eq_of_key_eq hother hoperation hkey
  obtain rfl := Request.native.inj (hrequest.symm.trans hfound)
  exact hreturns

/-- A row that is set is there, and the others are as they were. -/
theorem fresh_rows {s : State} {operation : Operation}
    (hfresh : s.operations.has operation.operationId = false)
    (hfree : s.queue.entries.has operation.operationId = false) :
    (∀ held ∈ s.operations.rows, held ∈ (s.operations.set operation).rows) ∧
      ∀ held ∈ (s.operations.set operation).rows, held ∈ s.operations.rows ∨
        s.queue.entries.has held.operationId = false := by
  constructor
  · intro held hheld
    exact Table.mem_set.mpr (Or.inr ⟨hheld, Table.has_eq_false.mp hfresh held hheld⟩)
  · intro held hheld
    rcases Table.mem_set.mp hheld with rfl | ⟨hold, -⟩
    · exact Or.inr hfree
    · exact Or.inl hold

/-- **One call keeps the invariants.** -/
theorem Stepped.good {s s' : State} {call : Call} {answer : Answer}
    (hstepped : Stepped s call s' answer) (h : Good s) : Good s' := by
  cases hstepped with
  | stays => exact h
  | finds => exact h
  | records operation session rejected hfresh hfree =>
    obtain ⟨hrows, hnew⟩ := fresh_rows hfresh hfree
    refine ⟨h.sound, ⟨?_, ?_⟩, h.holds⟩
    · intro entry hentry mutation hmutation hother
      obtain ⟨held, hheld, hkey, hmutates⟩ :=
        h.owned.mutations entry hentry mutation hmutation hother
      exact ⟨held, hrows held hheld, hkey, hmutates⟩
    · intro held hheld command hrequest haction
      rcases hnew held hheld with hold | hnone
      · exact h.owned.adds held hold command hrequest haction
      · exact hnone
  | adds operation session rejected command hfresh hfree hrequest =>
    obtain ⟨hrows, -⟩ := fresh_rows hfresh hfree
    refine h.save (newEntry_sound command operation.operationId) ⟨?_, ?_⟩
    · intro entry hentry mutation hmutation hother
      rcases Table.mem_set.mp hentry with rfl | ⟨hold, -⟩
      · exact absurd (Option.some.inj hmutation).symm hother
      · obtain ⟨held, hheld, hkey, hmutates⟩ :=
          h.owned.mutations entry hold mutation hmutation hother
        exact ⟨held, hrows held hheld, hkey, hmutates⟩
    · intro held hheld native hnative haction
      rcases Table.mem_set.mp hheld with rfl | ⟨hold, hne⟩
      · exact absurd (hrequest native hnative) haction
      · have hnone := h.owned.adds held hold native hnative haction
        rw [Table.has_eq_false] at hnone ⊢
        intro entry hentry
        rcases Table.mem_set.mp hentry with rfl | ⟨hmem, -⟩
        · exact hne.symm
        · exact hnone entry hmem
  | admits operation session rejected command entry admitted hfresh hfree hrequest haction hentry
      hid hadmits =>
      obtain ⟨hrows, hnew⟩ := fresh_rows hfresh hfree
      have hsound := h.sound entry hentry
      refine h.save (hadmits.sound hsound) (h.owned.save hentry hadmits.follows hrows hnew ?_)
      intro mutation hmutation
      obtain rfl := Option.some.inj (hadmits.mutation.symm.trans hmutation)
      refine Or.inr ⟨operation, Table.mem_set.mpr (Or.inl rfl), rfl, command, hrequest, haction,
        hid, fun _ => ⟨entry.revision, hadmits.expected, hsound.current⟩⟩
  | proves call entry proven proof hcall hentry hproves =>
    refine h.save (hproves.sound (h.sound entry hentry))
      (h.owned.save hentry hproves.follows (fun _ hheld => hheld) (fun _ hheld => Or.inl hheld) ?_)
    intro mutation hmutation
    rw [hproves.eq] at hmutation
    exact Or.inl (Option.filter_eq_some_iff.mp hmutation).1
  | moves transition operation command entry moved hoperation hcommand hentry habout howned hmoved =>
    refine h.save (hmoved.sound (h.sound entry hentry) ?_)
      (h.owned.save hentry hmoved.follows (fun _ hheld => hheld) (fun _ hheld => Or.inl hheld) ?_)
    · intro hupdate
      have haction : command.action ≠ .add := by
        rw [hupdate]
        decide
      exact (h.returns hoperation hcommand hentry habout howned haction).2.2 hupdate
    · intro mutation hmutation
      rw [hmoved.mutation] at hmutation
      split_ifs at hmutation
      exact Or.inl hmutation
  | compacts operationIds =>
    refine ⟨h.sound, ⟨?_, ?_⟩, h.holds⟩
    · intro entry hentry mutation hmutation hother
      obtain ⟨operation, hoperation, hkey, hmutates⟩ :=
        h.owned.mutations entry hentry mutation hmutation hother
      have hhold : s.queue.holds.has operation.operationId = true := by
        rw [Table.has_eq_true]
        refine ⟨⟨mutation, entry.entryId⟩, (h.holds _).mpr ⟨entry, hentry, rfl, ?_⟩, hkey.symm⟩
        exact mem_heldOperationIds.mpr (Or.inr ⟨hmutation, hother⟩)
      exact ⟨operation, Table.mem_filter.mpr ⟨hoperation, by simp [hhold]⟩, hkey, hmutates⟩
    · intro operation hoperation command hrequest haction
      exact h.owned.adds operation (Table.mem_filter.mp hoperation).1 command hrequest haction
  | reopens => exact ⟨h.sound, ⟨h.owned.mutations, h.owned.adds⟩, holdsMatch_rebuild h.owned⟩

/-- Every entry is still there and follows what it was. -/
def Continues (s s' : State) : Prop :=
  ∀ entry ∈ s.queue.entries.rows, ∃ entry' ∈ s'.queue.entries.rows, Follows entry entry'

theorem continues_save {s : State} {entry moved : Record}
    {operations : Table Operation.operationId} (hentry : entry ∈ s.queue.entries.rows)
    (hfollows : Follows entry moved) : Continues s ⟨s.queue.save moved, operations⟩ := by
  intro held hheld
  by_cases hsame : held.entryId = moved.entryId
  · obtain rfl := s.queue.entries.eq_of_key_eq hheld hentry (hsame.trans hfollows.entryId)
    exact ⟨moved, Table.mem_set.mpr (Or.inl rfl), hfollows⟩
  · exact ⟨held, Table.mem_set.mpr (Or.inr ⟨hheld, hsame⟩), Follows.refl held⟩

theorem Stepped.continues {s s' : State} {call : Call} {answer : Answer}
    (hstepped : Stepped s call s' answer) : Continues s s' := by
  have hrefl : Continues s s := fun entry hentry => ⟨entry, hentry, Follows.refl entry⟩
  cases hstepped with
  | adds operation session rejected command hfresh hfree hrequest =>
    intro held hheld
    have hne := Table.has_eq_false.mp hfree held hheld
    exact ⟨held, Table.mem_set.mpr (Or.inr ⟨hheld, hne⟩), Follows.refl held⟩
  | admits operation session rejected command entry admitted hfresh hfree hrequest haction hentry
      hid hadmits => exact continues_save hentry hadmits.follows
  | proves call entry proven proof hcall hentry hproves =>
    exact continues_save hentry hproves.follows
  | moves transition operation command entry moved hoperation hcommand hentry habout howned hmoved =>
    exact continues_save hentry hmoved.follows
  | _ => exact hrefl

/-! ### The fence of a mutation -/

/-- What a mutation under way lets through: of its entry no admission, no transition but its
own and a canonical proof, and no other call changes the entry. -/
structure Fenced (inputMatches : Version → List Json → Bool) (s : State) (entry : Record)
    (mutation : Id) : Prop where
  admission : ∀ command operationId saved q', command.action ≠ .add →
    truthy command.entryId = some entry.entryId →
      s.queue.admitCommand command operationId ≠ .ok (some saved, q')
  transition : ∀ command operationId transition saved q',
    s.queue.transition inputMatches command operationId transition = .ok (some saved, q') →
      saved.entryId = entry.entryId →
        operationId = mutation ∨ ∃ candidate, transition = .proven candidate
  step : ∀ call, entry ∈ (step inputMatches s call).1.queue.entries.rows ∨
    (∃ transition, call = .transition mutation transition) ∨
    (∃ operationId candidate, call = .transition operationId (.proven candidate)) ∨
    ∃ request, call = .settleCompacted request

theorem fenced_admit {q q' : Queue} {entry saved : Record} {mutation operationId : Id}
    {command : Command} (hentry : entry ∈ q.entries.rows)
    (hmutation : entry.mutationOperationId = some mutation) (haction : command.action ≠ .add)
    (hid : truthy command.entryId = some entry.entryId) :
    q.admitCommand command operationId ≠ .ok (some saved, q') := by
  intro h
  rcases admit_ok h with ⟨hnone, -⟩ | ⟨hadd, -⟩ | ⟨held, hheld, admitted, -, hheldId, hadmits, -⟩
  · nomatch hnone
  · exact haction hadd
  · obtain rfl := q.entries.eq_of_key_eq hheld hentry (Option.some.inj (hheldId.symm.trans hid))
    have hfree := hadmits.free
    rw [hmutation] at hfree
    nomatch hfree

theorem fenced_transition {inputMatches : Version → List Json → Bool} {q q' : Queue}
    {entry saved : Record} {mutation operationId : Id} {command : Command}
    {transition : Transition} (hentry : entry ∈ q.entries.rows)
    (hmutation : entry.mutationOperationId = some mutation)
    (h : q.transition inputMatches command operationId transition = .ok (some saved, q'))
    (hid : saved.entryId = entry.entryId) :
    operationId = mutation ∨ ∃ candidate, transition = .proven candidate := by
  rcases transition_ok h with ⟨hnone, -⟩ | ⟨held, hheld, -, hcase⟩
  · nomatch hnone
  have hsame : ∀ moved, some saved = some moved → Follows held moved → held = entry := by
    intro moved hsaved hfollows
    obtain rfl := Option.some.inj hsaved
    exact q.entries.eq_of_key_eq hheld hentry (hfollows.entryId.symm.trans hid)
  rcases hcase with ⟨-, hfree, hsaved, -⟩ | ⟨candidate, -, -, hproven, -⟩ |
    ⟨moved, howned, hmoved, hsaved, -⟩
  · obtain rfl := hsame held hsaved (Follows.refl held)
    rw [hmutation] at hfree
    nomatch hfree
  · exact Or.inr ⟨candidate, hproven⟩
  · obtain rfl := hsame moved hsaved hmoved.follows
    exact Or.inl (Option.some.inj (howned.symm.trans hmutation))

/-- A save of another entry leaves this one. -/
theorem kept_of_save {s : State} {entry held moved : Record}
    {operations : Table Operation.operationId} (hentry : entry ∈ s.queue.entries.rows)
    (hheld : held ∈ s.queue.entries.rows) (hfollows : Follows held moved) (hne : held ≠ entry) :
    entry ∈ (⟨s.queue.save moved, operations⟩ : State).queue.entries.rows := by
  refine Table.mem_set.mpr (Or.inr ⟨hentry, fun hsame => hne ?_⟩)
  exact s.queue.entries.eq_of_key_eq hheld hentry (hsame.trans hfollows.entryId).symm

theorem Stepped.fenced {s s' : State} {call : Call} {answer : Answer}
    (hstepped : Stepped s call s' answer) {entry : Record}
    (hentry : entry ∈ s.queue.entries.rows) {mutation : Id}
    (hmutation : entry.mutationOperationId = some mutation) :
    entry ∈ s'.queue.entries.rows ∨ (∃ transition, call = .transition mutation transition) ∨
      (∃ operationId candidate, call = .transition operationId (.proven candidate)) ∨
      ∃ request, call = .settleCompacted request := by
  cases hstepped with
  | adds operation session rejected command hfresh hfree hrequest =>
    exact Or.inl (Table.mem_set.mpr (Or.inr ⟨hentry, Table.has_eq_false.mp hfree entry hentry⟩))
  | admits operation session rejected command held admitted hfresh hfree hrequest haction hheld
      hid hadmits =>
      refine Or.inl (kept_of_save hentry hheld hadmits.follows ?_)
      rintro rfl
      have hnone := hadmits.free
      rw [hmutation] at hnone
      nomatch hnone
  | proves call held proven proof hcall hheld hproves =>
    rcases hcall with htransition | hcompacted
    · exact Or.inr (Or.inr (Or.inl htransition))
    · exact Or.inr (Or.inr (Or.inr hcompacted))
  | moves transition operation command held moved hoperation hcommand hheld habout howned hmoved =>
    by_cases hsame : held = entry
    · subst hsame
      obtain rfl := Option.some.inj (howned.symm.trans hmutation)
      exact Or.inr (Or.inl ⟨transition, rfl⟩)
    · exact Or.inl (kept_of_save hentry hheld hmoved.follows hsame)
  | _ => exact Or.inl hentry

/-! ### Runs -/

section

variable (inputMatches : Version → List Json → Bool)

theorem after_good (calls : List Call) : Good (after (step inputMatches) State.start calls) :=
  after_invariant (fun s call h => (step_stepped inputMatches s call).good h) start_good calls

/-- **A held operation has one entry**: the one that it is held for waits for it, and no other. -/
theorem held_for_one_entry (calls : List Call) :
    let queue := (after (step inputMatches) State.start calls).queue
    ∀ hold ∈ queue.holds.rows, ∃ entry ∈ queue.entries.rows, entry.entryId = hold.entryId ∧
      ∀ other ∈ queue.entries.rows, hold.operationId ∈ heldOperationIds other ↔ other = entry := by
  intro queue hold hhold
  have hgood := after_good inputMatches calls
  obtain ⟨entry, hentry, hid, hheld⟩ := (hgood.holds hold).mp hhold
  refine ⟨entry, hentry, hid.symm, fun other hother => ⟨fun hwaits => ?_, fun hsame => hsame ▸ hheld⟩⟩
  exact hgood.owned.unique hother hentry hwaits hheld

theorem after_continues (s : State) (calls : List Call) :
    Continues s (after (step inputMatches) s calls) := by
  refine Runs.after_related ?_ ?_ ?_ s calls
  · exact fun s entry hentry => ⟨entry, hentry, Follows.refl entry⟩
  · intro first second third hfirst hsecond entry hentry
    obtain ⟨entry', hentry', hfollows⟩ := hfirst entry hentry
    obtain ⟨entry'', hentry'', hfollows'⟩ := hsecond entry' hentry'
    exact ⟨entry'', hentry'', hfollows.trans hfollows'⟩
  · exact fun s call => (step_stepped inputMatches s call).continues

/-- **The native queue's entries are a state machine.**  In every state a run of calls
reaches:

* every entry has the versions 1 to n in order and its revision is one of them, and a proof
  has settled its entry with the prepared input of the version it names (`Sound`);
* a mutation under way fences its entry (`Fenced`);
* every entry of an earlier state is there, with the proof, the native submission and the
  prepared inputs it had (`Follows`), and delivered if it was proven. -/
theorem entries_consistent (calls : List Call) :
    (∀ entry ∈ (after (step inputMatches) State.start calls).queue.entries.rows,
      Sound entry ∧ ∀ mutation, entry.mutationOperationId = some mutation →
        Fenced inputMatches (after (step inputMatches) State.start calls) entry mutation) ∧
    ∀ pre post, calls = pre ++ post →
      ∀ entry ∈ (after (step inputMatches) State.start pre).queue.entries.rows,
        ∃ entry' ∈ (after (step inputMatches) State.start calls).queue.entries.rows,
          Follows entry entry' ∧ (entry.proof.isSome = true → entry'.state = .delivered) := by
  have hgood := after_good inputMatches calls
  constructor
  · intro entry hentry
    refine ⟨hgood.sound entry hentry, fun mutation hmutation => ⟨?_, ?_, ?_⟩⟩
    · intro command operationId saved q' haction hid
      exact fenced_admit hentry hmutation haction hid
    · intro command operationId transition saved q' h hid
      exact fenced_transition hentry hmutation h hid
    · intro call
      exact (step_stepped inputMatches _ call).fenced hentry hmutation
  · rintro pre post rfl entry hentry
    have hcontinues := after_continues inputMatches
      (after (step inputMatches) State.start pre) post
    rw [← Runs.after_append] at hcontinues
    obtain ⟨entry', hentry', hfollows⟩ := hcontinues entry hentry
    refine ⟨entry', hentry', hfollows, fun hproven => ?_⟩
    obtain ⟨proof, hproof⟩ := Option.isSome_iff_exists.mp hproven
    exact ((hgood.sound entry' hentry').proven proof (hfollows.proof proof hproof)).1

end

end Delegatus.NativeQueue
