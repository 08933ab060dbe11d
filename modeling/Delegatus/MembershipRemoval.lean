import Delegatus.MembershipRecording
import Mathlib.Data.List.Forall2

/-!
# Conversations of removed rows

`deleteTask` and `removeAssignment` take rows off a task and bind every conversation that no
task records any more to a replacement (`replaceLostMemberships`).  The replacement is the task
of the row's admission origin, where there is one.  `upsertLinked` fills a failed row of that
task that holds the identity, and then no live row does: `removal_keeps_conversations_iff` says
that this is the only way in which a removal leaves a conversation outside every task.
-/

namespace Delegatus.TaskMembership

open LinkStamps (Instant)
open LinkedBoards (AssignmentState LocalTask MembershipIdentity OriginKind TaskAssignment TaskOrigin
  assignmentAdmissionOrigin assignmentHoldsIdentity assignmentIdentity hasIdentity identityHeldBy
  lostAdmission upsertLinked)

/-! ### Removals -/

/-- The input of a replacement: no targets, no participants and no admission check. -/
def replacementInput (project : String) (origin : OriginKind × String)
    (identity : MembershipIdentity) : MembershipInput :=
  { project := project, origin := origin, title := none, description := none
    identity := identity, explicitTaskIds := [], fallbackOrigin := none, inherit := []
    titled := false, admission := none, admitRelated := none }

/-- The tasks so far, the placeholders made, and the place in the list of removed rows. -/
structure Replacing where
  tasks : List LocalTask
  replacements : List String
  index : Nat

/-- One removed row.  `forbid` is the task that no replacement may resolve to. -/
def replaceLost (canonicalProject : String → String) (project : String) (forbid : Option String)
    (deps : Nat → MembershipDeps) (acc : Replacing) (assignment : TaskAssignment) :
    Except MembershipFailure Replacing :=
  match lostAdmission acc.tasks assignment with
  | none => .ok { acc with index := acc.index + 1 }
  | some (identity, origin) =>
    (ensureTaskMembership canonicalProject acc.tasks (replacementInput project origin identity)
      (deps acc.index)).bind fun result =>
        if forbid.any (fun id => id ≠ "" && decide (id ∈ result.taskIds)) then
          refuse 409 "this task is the conversation's own membership; link the conversation to another task first or delete the task"
        else .ok ⟨result.tasks, acc.replacements ++ result.created, acc.index + 1⟩

/-- The conversations of `removed` that no task of `tasks` records are bound to replacements. -/
def replaceLostMemberships (canonicalProject : String → String) (tasks : List LocalTask)
    (project : String) (removed : List TaskAssignment) (forbid : Option String)
    (deps : Nat → MembershipDeps) : Except MembershipFailure Replacing :=
  Refusals.run (replaceLost canonicalProject project forbid deps) ⟨tasks, [], 0⟩ removed

/-- The tasks and the replacements. -/
def deleteTask (canonicalProject : String → String) (existing : List LocalTask) (id : String)
    (deps : Nat → MembershipDeps) : Except MembershipFailure (List LocalTask × List String) :=
  match existing.find? (fun candidate => candidate.id = id) with
  | none => refuse 404 "task not found"
  | some task =>
    if task.proactive then
      refuse 403 "invented work retains its provenance; hide or reject it instead"
    else
      (replaceLostMemberships canonicalProject
        (existing.filter (fun candidate => candidate.id ≠ id)) task.project task.rest.assignments
        none deps).map fun replaced => (replaced.tasks, replaced.replacements)

/-- A handle of a row: the launch first, then the conversation, the path and the pane. -/
structure AssignmentRef where
  launchId : Option String
  path : Option String
  conversationId : Option String
  panePid : Option Nat

def assignmentMatchesRef (ref : AssignmentRef) (assignment : TaskAssignment) : Bool :=
  if ref.launchId.isSome then assignment.launchId = ref.launchId
  else if ref.conversationId.isSome then assignment.conversationId = ref.conversationId
  else if ref.path.isSome then assignment.path = ref.path
  else if ref.panePid.isSome then assignment.panePid = ref.panePid
  else false

/-- The task without the rows that the handle names. -/
def detached (task : LocalTask) (ref : AssignmentRef) (now : Instant) : LocalTask :=
  { task with
    rest := { task.rest with
      assignments := task.rest.assignments.filter (fun row => !assignmentMatchesRef ref row) }
    updatedAt := now }

/-- The tasks, and the task that was detached from. -/
def removeAssignment (canonicalProject : String → String) (existing : List LocalTask)
    (id : String) (ref : AssignmentRef) (now : Instant) (deps : Nat → MembershipDeps) :
    Except MembershipFailure (List LocalTask × LocalTask) :=
  match existing.findIdx? (fun task => task.id = id) with
  | none => refuse 404 "task not found"
  | some index =>
    match existing[index]? with
    | none => refuse 404 "task not found"
    | some task =>
      let removed := task.rest.assignments.filter (assignmentMatchesRef ref)
      if (detached task ref now).rest.assignments.length = task.rest.assignments.length then
        .ok (existing, task)
      else
        (replaceLostMemberships canonicalProject (existing.set index (detached task ref now))
          task.project removed (some id) deps).map fun replaced =>
            (replaced.tasks, detached task ref now)

/-! ### What a call removes -/

/-- A call that takes rows off a task. -/
inductive Removal where
  | delete (id : String)
  | detach (id : String) (ref : AssignmentRef) (now : Instant)

def Removal.target : Removal → String
  | .delete id => id
  | .detach id _ _ => id

/-- The tasks that the call returns. -/
def Removal.call (canonicalProject : String → String) (existing : List LocalTask)
    (deps : Nat → MembershipDeps) : Removal → Except MembershipFailure (List LocalTask)
  | .delete id => (deleteTask canonicalProject existing id deps).map Prod.fst
  | .detach id ref now =>
    (removeAssignment canonicalProject existing id ref now deps).map Prod.fst

/-- The rows that the call takes off `task`. -/
def Removal.removed (task : LocalTask) : Removal → List TaskAssignment
  | .delete _ => task.rest.assignments
  | .detach _ ref _ => task.rest.assignments.filter (assignmentMatchesRef ref)

/-- The list without these rows. -/
def Removal.remaining (existing : List LocalTask) (task : LocalTask) : Removal → List LocalTask
  | .delete id => existing.filter (fun candidate => candidate.id ≠ id)
  | .detach id ref now =>
    if task.rest.assignments.filter (assignmentMatchesRef ref) = [] then existing
    else existing.map (fun candidate => if candidate.id = id then detached task ref now else candidate)

/-- The task that no replacement may resolve to. -/
def Removal.forbid : Removal → Option String
  | .delete _ => none
  | .detach id _ _ => some id

/-! ### The calls as one fold -/

section

variable {canonicalProject : String → String} {existing after : List LocalTask}
  {deps : Nat → MembershipDeps}

/-- Setting one place of a list with distinct keys replaces what has its key. -/
theorem set_eq_map {α κ : Type} [DecidableEq κ] {key : α → κ} {xs : List α}
    (hkeys : (xs.map key).Nodup) {index : Nat} (hlt : index < xs.length) (y : α) :
    xs.set index y = xs.map (fun x => if key x = key xs[index] then y else x) := by
  apply List.ext_getElem
  · simp
  · intro i hi hi'
    have hi'' : i < xs.length := by simpa using hi'
    rw [List.getElem_set, List.getElem_map]
    by_cases heq : index = i
    · subst heq
      rw [if_pos rfl, if_pos rfl]
    · have hother : key xs[i] ≠ key xs[index] := by
        intro hsame
        have hx := List.inj_on_of_nodup_map hkeys (List.getElem_mem hi'') (List.getElem_mem hlt) hsame
        exact heq ((List.Nodup.of_map key hkeys).getElem_inj_iff.mp hx).symm
      rw [if_neg heq, if_neg hother]

/-- **A successful call** takes rows off the target and replaces what they lose. -/
theorem Removal.call_ok (hids : (existing.map LinkedBoards.BoardTask.id).Nodup) {removal : Removal}
    (h : removal.call canonicalProject existing deps = .ok after) :
    ∃ task ∈ existing, task.id = removal.target ∧ ∃ acc,
      replaceLostMemberships canonicalProject (removal.remaining existing task) task.project
        (removal.removed task) removal.forbid deps = .ok acc ∧ acc.tasks = after := by
  cases removal with
  | delete id =>
    obtain ⟨out, hout, rfl⟩ := Refusals.map_eq_ok.mp h
    unfold deleteTask at hout
    split at hout
    · cases hout
    · rename_i task hfound
      have hid := List.find?_some hfound
      refine ⟨task, List.mem_of_find?_eq_some hfound, of_decide_eq_true hid, ?_⟩
      split at hout
      · cases hout
      · obtain ⟨acc, hacc, rfl⟩ := Refusals.map_eq_ok.mp hout
        exact ⟨acc, hacc, rfl⟩
  | detach id ref now =>
    obtain ⟨out, hout, rfl⟩ := Refusals.map_eq_ok.mp h
    unfold removeAssignment at hout
    split at hout
    · cases hout
    · rename_i index hfound
      obtain ⟨hlt, hid, _⟩ := List.findIdx?_eq_some_iff_getElem.mp hfound
      have hid := of_decide_eq_true hid
      rw [List.getElem?_eq_getElem hlt] at hout
      dsimp only at hout
      refine ⟨existing[index], List.getElem_mem hlt, hid, ?_⟩
      have hlength := List.length_eq_length_filter_add (l := existing[index].rest.assignments)
        (assignmentMatchesRef ref)
      by_cases hnone : existing[index].rest.assignments.filter (assignmentMatchesRef ref) = []
      · have hsame : (detached existing[index] ref now).rest.assignments.length =
            existing[index].rest.assignments.length := by
          rw [hnone] at hlength
          simpa [detached] using hlength.symm
        rw [if_pos hsame] at hout
        obtain rfl := Except.ok.inj hout
        refine ⟨⟨existing, [], 0⟩, ?_, rfl⟩
        simp [replaceLostMemberships, Removal.remaining, Removal.removed, hnone]
      · have hfewer : ¬ (detached existing[index] ref now).rest.assignments.length =
            existing[index].rest.assignments.length := by
          have hpos := List.length_pos_iff.mpr hnone
          simp only [detached]
          omega
        rw [if_neg hfewer] at hout
        obtain ⟨acc, hacc, rfl⟩ := Refusals.map_eq_ok.mp hout
        refine ⟨acc, ?_, rfl⟩
        rw [set_eq_map hids hlt, hid] at hacc
        simp only [Removal.remaining, if_neg hnone]
        exact hacc

end

/-! ### What one replacement does -/

theorem identityHeldBy_iff {tasks : List LocalTask} {identity : MembershipIdentity} :
    identityHeldBy tasks identity = true ↔ ∃ task ∈ tasks, holds identity task = true := by
  simp [identityHeldBy, holds]

theorem assignmentIdentity_some {row : TaskAssignment} {identity : MembershipIdentity}
    (h : assignmentIdentity row = some identity) :
    hasIdentity identity = true ∧ row.launchId = identity.launchId ∧
      row.clientAttemptId = identity.clientAttemptId ∧
        row.conversationId = identity.conversationId ∧ row.path = identity.path := by
  unfold assignmentIdentity at h
  dsimp only at h
  split at h
  · rename_i hidentity
    obtain rfl := Option.some.inj h
    exact ⟨hidentity, rfl, rfl, rfl, rfl⟩
  · cases h

/-- A row holds the identity it stands for. -/
theorem assignmentHoldsIdentity_self {row : TaskAssignment} {identity : MembershipIdentity}
    (h : assignmentIdentity row = some identity) : assignmentHoldsIdentity row identity = true := by
  obtain ⟨hnamed, hlaunch, hattempt, hconversation, hpath⟩ := assignmentIdentity_some h
  simp only [hasIdentity, Bool.or_eq_true] at hnamed
  simp only [assignmentHoldsIdentity, hlaunch, hattempt, hconversation, hpath, Bool.and_self,
    decide_true, Bool.and_true]
  split_ifs <;> simp_all

theorem lostAdmission_some {tasks : List LocalTask} {row : TaskAssignment}
    {identity : MembershipIdentity} {origin : OriginKind × String} :
    lostAdmission tasks row = some (identity, origin) ↔ row.state ≠ .failed ∧
      assignmentIdentity row = some identity ∧ assignmentAdmissionOrigin row = some origin ∧
        identityHeldBy tasks identity = false := by
  unfold lostAdmission
  constructor
  · intro h
    split at h
    · cases h
    · rename_i hlive
      split at h
      · rename_i held key hidentity horigin
        split at h
        · cases h
        · rename_i hfree
          obtain ⟨rfl, rfl⟩ := Prod.mk.inj (Option.some.inj h)
          exact ⟨hlive, hidentity, horigin, Bool.eq_false_iff.mpr hfree⟩
      · cases h
  · rintro ⟨hlive, hidentity, horigin, hfree⟩
    rw [if_neg hlive, hidentity, horigin]
    simp [hfree]

/-! ### Turns -/

/-- The row needs a replacement, and its origin's task has a failed row that holds it. -/
def reusesFailedRow (project : String) (tasks : List LocalTask) (row : TaskAssignment) : Bool :=
  match lostAdmission tasks row with
  | none => false
  | some (identity, origin) =>
    (tasks.find? (ofOrigin (JsStrings.trim project) origin)).any (fun task =>
      task.rest.assignments.any (fun held => assignmentHoldsIdentity held identity))

/-- The row needs a replacement, and gets a linked row of its own. -/
def relinks (project : String) (tasks : List LocalTask) (row : TaskAssignment) : Bool :=
  (lostAdmission tasks row).isSome && !reusesFailedRow project tasks row

section

variable {canonicalProject : String → String} {project : String} {forbid : Option String}
  {deps : Nat → MembershipDeps} {acc next : Replacing} {row : TaskAssignment}

/-- **All that a turn does.**  It leaves the tasks, or it records the row's identity on the task
of its origin, or on a new placeholder where there is none. -/
theorem replaceLost_ok (h : replaceLost canonicalProject project forbid deps acc row = .ok next) :
    (lostAdmission acc.tasks row = none ∧ next.tasks = acc.tasks) ∨
      ∃ identity origin, lostAdmission acc.tasks row = some (identity, origin) ∧
        ((∃ index task task', acc.tasks[index]? = some task ∧
            acc.tasks.find? (ofOrigin (JsStrings.trim project) origin) = some task ∧
            Recorded identity (deps acc.index).now task task' ∧
            next.tasks = acc.tasks.set index task') ∨
          (acc.tasks.find? (ofOrigin (JsStrings.trim project) origin) = none ∧
            next.tasks = acc.tasks ++
              [placeholder (replacementInput project origin identity) (deps acc.index)])) := by
  unfold replaceLost at h
  split at h
  · rename_i hlost
    obtain rfl := Except.ok.inj h
    exact Or.inl ⟨hlost, rfl⟩
  · rename_i identity origin hlost
    refine Or.inr ⟨identity, origin, hlost, ?_⟩
    obtain ⟨result, hresult, hnext⟩ := Refusals.bind_eq_ok.mp h
    have htasks : next.tasks = result.tasks := by
      split at hnext
      · cases hnext
      · obtain rfl := Except.ok.inj hnext
        rfl
    rw [htasks]
    rw [ensureTaskMembership_untargeted _ rfl] at hresult
    obtain ⟨-, -, -, hfree⟩ := lostAdmission_some.mp hlost
    have hheld : indexesOf (holds identity) acc.tasks = [] := by
      rw [indexesOf_eq_nil]
      intro task htask
      by_contra hholds
      rw [identityHeldBy_iff.mpr ⟨task, htask, Bool.eq_true_of_not_eq_false hholds⟩] at hfree
      cases hfree
    have hinherited : indexesOf (inherits []) acc.tasks = [] :=
      indexesOf_eq_nil.mpr (fun _ _ => rfl)
    rw [List.find?_eq_bind_findIdx?_getElem?]
    cases hfound : acc.tasks.findIdx? (ofOrigin (JsStrings.trim project) origin) with
    | some index =>
      have hresolved : resolved acc.tasks (replacementInput project origin identity) =
          some [index] := by
        simp [resolved, replacementInput, hfound]
      obtain ⟨-, hjoined⟩ := (ensureUntargeted_of_resolved hresolved).mp hresult
      obtain ⟨-, -, hrecorded⟩ := joinTasks_ok (List.nodup_singleton index) hjoined
      have hlt : index < acc.tasks.length := (List.findIdx?_eq_some_iff_getElem.mp hfound).1
      have hget := List.getElem?_eq_getElem hlt
      obtain ⟨task', htask', hrows⟩ :=
        hrecorded.recorded index acc.tasks[index] List.mem_cons_self hget
      refine Or.inl ⟨index, acc.tasks[index], task', hget, hget, hrows, ?_⟩
      apply List.ext_getElem?
      intro i
      by_cases heq : i = index
      · rw [heq, htask', List.getElem?_set_self hlt]
      · rw [hrecorded.others i (by simpa using heq), List.getElem?_set_ne (Ne.symm heq)]
    | none =>
      have hresolved : resolved acc.tasks (replacementInput project origin identity) = none := by
        simp [resolved, replacementInput, hfound, hheld, hinherited]
      obtain ⟨-, rfl⟩ := (ensureUntargeted_of_unresolved hresolved).mp hresult
      exact Or.inr ⟨rfl, rfl⟩

theorem exists_mem_set {α : Type} {xs : List α} {index : Nat} {x y : α} {P : α → Prop} {X : Prop}
    (hx : xs[index]? = some x) (hy : P y ↔ P x ∨ X) :
    (∃ z ∈ xs.set index y, P z) ↔ (∃ z ∈ xs, P z) ∨ X := by
  have hlt : index < xs.length := (List.getElem?_eq_some_iff.mp hx).1
  have hmem : y ∈ xs.set index y := List.mem_set hlt y
  constructor
  · rintro ⟨z, hz, hP⟩
    rcases List.mem_or_eq_of_mem_set hz with hz | rfl
    · exact Or.inl ⟨z, hz, hP⟩
    · exact (hy.mp hP).imp_left (fun hx' => ⟨x, List.mem_of_getElem? hx, hx'⟩)
  · rintro (⟨z, hz, hP⟩ | hX)
    · obtain ⟨i, hi⟩ := List.getElem?_of_mem hz
      by_cases heq : index = i
      · subst heq
        obtain rfl := Option.some.inj (hx.symm.trans hi)
        exact ⟨y, hmem, hy.mpr (Or.inl hP)⟩
      · refine ⟨z, List.mem_of_getElem? (i := i) ?_, hP⟩
        rw [List.getElem?_set_ne heq, hi]
    · exact ⟨y, hmem, hy.mpr (Or.inr hX)⟩

theorem lost_of_reusesFailedRow {tasks : List LocalTask} {identity : MembershipIdentity}
    (h : reusesFailedRow project tasks row = true) (hidentity : assignmentIdentity row = some identity) :
    ∃ origin, lostAdmission tasks row = some (identity, origin) := by
  unfold reusesFailedRow at h
  split at h
  · cases h
  · rename_i lost origin hlost
    obtain ⟨-, hlostIdentity, -, -⟩ := lostAdmission_some.mp hlost
    obtain rfl := Option.some.inj (hidentity.symm.trans hlostIdentity)
    exact ⟨origin, hlost⟩

theorem relinks_of_lost {tasks : List LocalTask} {identity : MembershipIdentity}
    {origin : OriginKind × String} (hlost : lostAdmission tasks row = some (identity, origin)) :
    relinks project tasks row = true ↔
      ∀ task, tasks.find? (ofOrigin (JsStrings.trim project) origin) = some task →
        Unrecorded identity task := by
  unfold relinks reusesFailedRow
  rw [hlost]
  cases hfound : tasks.find? (ofOrigin (JsStrings.trim project) origin) with
  | none => simp [hfound]
  | some task => simp [hfound, Unrecorded]

/-- **A turn makes a conversation held** only by a linked row of its own. -/
theorem replaceLost_held (h : replaceLost canonicalProject project forbid deps acc row = .ok next)
    (other : MembershipIdentity) :
    identityHeldBy next.tasks other = true ↔ identityHeldBy acc.tasks other = true ∨
      (relinks project acc.tasks row = true ∧ assignmentHoldsIdentity row other = true) := by
  rcases replaceLost_ok h with ⟨hlost, hsame⟩ | ⟨identity, origin, hlost, hrest⟩
  · simp [hsame, relinks, hlost]
  · obtain ⟨-, hidentity, -, hfree⟩ := lostAdmission_some.mp hlost
    obtain ⟨hnamed, hlaunch, hattempt, hconversation, hpath⟩ := assignmentIdentity_some hidentity
    have hlinked : ∀ task now, assignmentHoldsIdentity (linkedRow task identity now) other =
        assignmentHoldsIdentity row other :=
      fun task now => assignmentHoldsIdentity_linkedRow task now hlaunch hattempt hconversation hpath
    rw [relinks_of_lost hlost]
    simp only [identityHeldBy_iff]
    rcases hrest with ⟨index, task, task', htask, hfound, hrecorded, hset⟩ | ⟨hnone, happend⟩
    · have hfree' : holds identity task = false := by
        by_contra hholds
        have hheld := identityHeldBy_iff.mpr
          ⟨task, List.mem_of_getElem? htask, Bool.eq_true_of_not_eq_false hholds⟩
        rw [hheld] at hfree
        cases hfree
      have hmade := hrecorded.holds_iff hfree' other
      rw [hlinked] at hmade
      rw [hset, exists_mem_set htask hmade, hfound]
      simp
    · have hrows : (placeholder (replacementInput project origin identity)
          (deps acc.index)).rest.assignments =
          [linkedRow (barePlaceholder (replacementInput project origin identity) (deps acc.index))
            identity (deps acc.index).now] := rfl
      have hmade : holds other (placeholder (replacementInput project origin identity)
          (deps acc.index)) = true ↔ assignmentHoldsIdentity row other = true := by
        simp [holds_iff_exists, hrows, hlinked]
      rw [happend, hnone]
      simp [or_and_right, exists_or, hmade]

end

/-! ### The tasks beside the target -/

/-- The task is a replacement: it has the admission origin of a live removed row. -/
def Replaces (project : String) (removed : List TaskAssignment) (task : LocalTask) : Prop :=
  ∃ row ∈ removed, row.state ≠ .failed ∧ ∃ origin, assignmentAdmissionOrigin row = some origin ∧
    ofOrigin (JsStrings.trim project) origin task = true

/-- What a removal makes of a task that it does not take rows off. -/
structure Stays (project : String) (removed : List TaskAssignment) (task task' : LocalTask) :
    Prop where
  id : task'.id = task.id
  inProject : task'.project = task.project
  origin : task'.rest.origin = task.rest.origin
  rows : Replaces project removed task ∨ task'.rest.assignments = task.rest.assignments

/-- Every task stays in its place, and what is at a new place is a replacement. -/
structure Continues (project : String) (removed : List TaskAssignment)
    (tasks tasks' : List LocalTask) : Prop where
  stays : ∀ (i : Nat) task, tasks[i]? = some task → ∃ task', tasks'[i]? = some task' ∧
    Stays project removed task task'
  created : ∀ (i : Nat) task', tasks[i]? = none → tasks'[i]? = some task' → Replaces project removed task'

section

variable {project : String} {removed : List TaskAssignment} {task task' task'' : LocalTask}
  {tasks tasks' tasks'' : List LocalTask}

theorem Stays.refl (task : LocalTask) : Stays project removed task task :=
  ⟨rfl, rfl, rfl, Or.inr rfl⟩

theorem Stays.replaces (h : Stays project removed task task') :
    Replaces project removed task' ↔ Replaces project removed task := by
  simp only [Replaces, fun origin => ofOrigin_of_same (JsStrings.trim project) origin h.inProject h.origin]

theorem Stays.trans (h : Stays project removed task task') (h' : Stays project removed task' task'') :
    Stays project removed task task'' := by
  refine ⟨h'.id.trans h.id, h'.inProject.trans h.inProject, h'.origin.trans h.origin, ?_⟩
  rcases h.rows with hreplaces | hrows
  · exact Or.inl hreplaces
  · rcases h'.rows with hreplaces | hrows'
    · exact Or.inl (h.replaces.mp hreplaces)
    · exact Or.inr (hrows'.trans hrows)

theorem Continues.refl (tasks : List LocalTask) : Continues project removed tasks tasks := by
  constructor
  · intro i task htask
    exact ⟨task, htask, Stays.refl task⟩
  · intro i task' hnone htask
    rw [hnone] at htask
    cases htask

theorem Continues.trans (h : Continues project removed tasks tasks')
    (h' : Continues project removed tasks' tasks'') : Continues project removed tasks tasks'' := by
  constructor
  · intro i task htask
    obtain ⟨mid, hmid, hfirst⟩ := h.stays i task htask
    obtain ⟨last, hlast, hsecond⟩ := h'.stays i mid hmid
    exact ⟨last, hlast, hfirst.trans hsecond⟩
  · intro i last hnone hlast
    cases hmid : tasks'[i]? with
    | none => exact h'.created i last hmid hlast
    | some mid =>
      obtain ⟨last', hlast', hstays⟩ := h'.stays i mid hmid
      obtain rfl := Option.some.inj (hlast.symm.trans hlast')
      exact hstays.replaces.mpr (h.created i mid hnone hmid)

/-- The list that a list continues into, cut where the new places begin. -/
theorem Continues.split (h : Continues project removed tasks tasks') :
    ∃ kept created, tasks' = kept ++ created ∧ List.Forall₂ (Stays project removed) tasks kept ∧
      ∀ task ∈ created, Replaces project removed task := by
  refine ⟨tasks'.take tasks.length, tasks'.drop tasks.length,
    (List.take_append_drop _ _).symm, ?_, ?_⟩
  · have hlength : tasks.length ≤ tasks'.length := by
      by_contra hshort
      have hlt : tasks'.length < tasks.length := by omega
      obtain ⟨last, hlast, -⟩ := h.stays _ _ (List.getElem?_eq_getElem hlt)
      simp at hlast
    refine List.forall₂_iff_get.mpr ⟨by simp [hlength], fun i hi hi' => ?_⟩
    obtain ⟨last, hlast, hstays⟩ := h.stays i _ (List.getElem?_eq_getElem hi)
    have hget : (tasks'.take tasks.length).get ⟨i, hi'⟩ = last := by
      apply Option.some.inj
      rw [← hlast, List.get_eq_getElem, ← List.getElem?_eq_getElem, List.getElem?_take_of_lt hi]
    rw [hget]
    exact hstays
  · intro task htask
    obtain ⟨i, hi⟩ := List.getElem?_of_mem htask
    rw [List.getElem?_drop] at hi
    exact h.created _ task (List.getElem?_eq_none (by omega)) hi

end

section

variable {canonicalProject : String → String} {project : String} {forbid : Option String}
  {deps : Nat → MembershipDeps} {acc next : Replacing} {row : TaskAssignment}
  {removed : List TaskAssignment}

/-- A turn changes at most the rows of a replacement. -/
theorem replaceLost_continues (hrow : row ∈ removed)
    (h : replaceLost canonicalProject project forbid deps acc row = .ok next) :
    Continues project removed acc.tasks next.tasks := by
  rcases replaceLost_ok h with ⟨-, hsame⟩ | ⟨identity, origin, hlost, hrest⟩
  · rw [hsame]
    exact Continues.refl acc.tasks
  · obtain ⟨hlive, -, horigin, -⟩ := lostAdmission_some.mp hlost
    rcases hrest with ⟨index, task, task', htask, hfound, hrecorded, hset⟩ | ⟨-, happend⟩
    · have hreplaces : Replaces project removed task :=
        ⟨row, hrow, hlive, origin, horigin, List.find?_some hfound⟩
      have hlt : index < acc.tasks.length := (List.getElem?_eq_some_iff.mp htask).1
      rw [hset]
      constructor
      · intro i held hheld
        by_cases heq : index = i
        · subst heq
          obtain rfl := Option.some.inj (htask.symm.trans hheld)
          refine ⟨task', List.getElem?_set_self hlt, ?_⟩
          exact ⟨hrecorded.id, hrecorded.project, hrecorded.origin, Or.inl hreplaces⟩
        · refine ⟨held, ?_, Stays.refl held⟩
          rw [List.getElem?_set_ne heq, hheld]
      · intro i held hnone hheld
        have hge := List.getElem?_eq_none_iff.mp hnone
        have hlt' := (List.getElem?_eq_some_iff.mp hheld).1
        rw [List.length_set] at hlt'
        omega
    · rw [happend]
      constructor
      · intro i held hheld
        refine ⟨held, ?_, Stays.refl held⟩
        rw [List.getElem?_append_left (List.getElem?_eq_some_iff.mp hheld).1, hheld]
      · intro i held hnone hheld
        have hge := List.getElem?_eq_none_iff.mp hnone
        rw [List.getElem?_append_right hge, List.getElem?_singleton] at hheld
        split at hheld
        · obtain rfl := Option.some.inj hheld
          refine ⟨row, hrow, hlive, origin, horigin, ?_⟩
          have hframe := upsertLinked_frame
            (barePlaceholder (replacementInput project origin identity) (deps acc.index)) identity
            (deps acc.index).now
          refine (ofOrigin_of_same _ _ hframe.2.1 hframe.2.2).trans ?_
          simp [ofOrigin, hasOrigin, barePlaceholder, replacementInput]
        · cases hheld

theorem replaceLostMemberships_continues {tasks : List LocalTask}
    (h : replaceLostMemberships canonicalProject tasks project removed forbid deps = .ok acc) :
    Continues project removed tasks acc.tasks := by
  refine Refusals.run_invariant (I := fun state => Continues project removed tasks state.tasks)
    ?_ (Continues.refl tasks) h
  intro state row next hrow hstate hturn
  exact hstate.trans (replaceLost_continues hrow hturn)

end

/-! ### No conversation leaves every task -/

/-- Every identity that a live row records, with an admission origin, is held afterwards. -/
def KeepsConversations (before after : List LocalTask) : Prop :=
  ∀ task ∈ before, ∀ row ∈ task.rest.assignments, row.state ≠ .failed →
    ∀ identity, assignmentIdentity row = some identity →
      (assignmentAdmissionOrigin row).isSome = true → identityHeldBy after identity = true

/-- The tasks beside the target keep their places and, where they are no replacement, their
rows; what is new among them is a replacement. -/
def Removal.OthersUnchanged (removal : Removal) (before after : List LocalTask) : Prop :=
  ∀ target ∈ before, target.id = removal.target →
    ∃ kept created,
      after.filter (fun task => task.id ≠ removal.target) = kept ++ created ∧
        List.Forall₂ (Stays target.project (removal.removed target))
          (before.filter (fun task => task.id ≠ removal.target)) kept ∧
        ∀ task ∈ created, Replaces target.project (removal.removed target) task

/-- The turn that a removed row of `target` takes, and the tasks it finds. -/
def Removal.Turn (canonicalProject : String → String) (existing : List LocalTask)
    (deps : Nat → MembershipDeps) (removal : Removal) (target : LocalTask) (acc : Replacing)
    (row : TaskAssignment) : Prop :=
  Refusals.Turn (replaceLost canonicalProject target.project removal.forbid deps)
    ⟨removal.remaining existing target, [], 0⟩ (removal.removed target) acc row

/-- A removed row whose turn finds no live row that holds it, and a failed one on the task of
its origin, is held by another removed row that its own turn links. -/
def Removal.Relinked (canonicalProject : String → String) (existing : List LocalTask)
    (deps : Nat → MembershipDeps) (removal : Removal) : Prop :=
  ∀ target ∈ existing, target.id = removal.target → ∀ acc row identity,
    removal.Turn canonicalProject existing deps target acc row →
      reusesFailedRow target.project acc.tasks row = true →
        assignmentIdentity row = some identity →
          ∃ acc' row', removal.Turn canonicalProject existing deps target acc' row' ∧
            relinks target.project acc'.tasks row' = true ∧
              assignmentHoldsIdentity row' identity = true

section

variable {existing : List LocalTask} {removal : Removal} {target : LocalTask}

theorem Removal.removed_subset {row : TaskAssignment} (h : row ∈ removal.removed target) :
    row ∈ target.rest.assignments := by
  cases removal with
  | delete id => exact h
  | detach id ref now => exact (List.mem_filter.mp h).1

/-- A row that is not taken off stays on a task of the list. -/
theorem Removal.stays_or_removed (hids : (existing.map LinkedBoards.BoardTask.id).Nodup)
    (htarget : target ∈ existing) (hid : target.id = removal.target) {task : LocalTask}
    (htask : task ∈ existing) {row : TaskAssignment} (hrow : row ∈ task.rest.assignments) :
    (∃ held ∈ removal.remaining existing target, row ∈ held.rest.assignments) ∨
      row ∈ removal.removed target := by
  by_cases hsame : task.id = removal.target
  · obtain rfl : task = target :=
      List.inj_on_of_nodup_map hids htask htarget (hsame.trans hid.symm)
    cases removal with
    | delete id => exact Or.inr hrow
    | detach id ref now =>
      by_cases hmatch : assignmentMatchesRef ref row = true
      · exact Or.inr (List.mem_filter.mpr ⟨hrow, hmatch⟩)
      · left
        simp only [Removal.remaining]
        split_ifs with hnone
        · exact ⟨task, htask, hrow⟩
        · refine ⟨detached task ref now, List.mem_map.mpr ⟨task, htask, if_pos hid⟩, ?_⟩
          exact List.mem_filter.mpr ⟨hrow, by simpa using hmatch⟩
  · refine Or.inl ⟨task, ?_, hrow⟩
    cases removal with
    | delete id => exact List.mem_filter.mpr ⟨htask, decide_eq_true hsame⟩
    | detach id ref now =>
      simp only [Removal.remaining]
      split_ifs with hnone
      · exact htask
      · exact List.mem_map.mpr ⟨task, htask, if_neg hsame⟩

/-- Beside the target a removal only replaces. -/
theorem Removal.filter_remaining (hid : target.id = removal.target) :
    (removal.remaining existing target).filter (fun task => task.id ≠ removal.target) =
      existing.filter (fun task => task.id ≠ removal.target) := by
  cases removal with
  | delete id =>
    change (existing.filter (fun task => task.id ≠ id)).filter (fun task => task.id ≠ id) =
      existing.filter (fun task => task.id ≠ id)
    rw [List.filter_filter]
    simp only [Bool.and_self]
  | detach id ref now =>
    have hid : target.id = id := hid
    simp only [Removal.remaining, Removal.target]
    split_ifs
    · rfl
    · induction existing with
      | nil => rfl
      | cons candidate rest ih =>
        by_cases hsame : candidate.id = id
        · have hdetached : (detached target ref now).id = id := hid
          simpa [hsame, hdetached] using ih
        · simpa [hsame] using ih

end

section

variable {canonicalProject : String → String} {existing after : List LocalTask}
  {deps : Nat → MembershipDeps} {removal : Removal}

theorem Removal.others_unchanged (hids : (existing.map LinkedBoards.BoardTask.id).Nodup)
    (h : removal.call canonicalProject existing deps = .ok after) :
    removal.OthersUnchanged existing after := by
  intro target htarget hid
  obtain ⟨task, htask, htaskid, acc, hrun, rfl⟩ := removal.call_ok hids h
  obtain rfl : task = target := List.inj_on_of_nodup_map hids htask htarget (htaskid.trans hid.symm)
  obtain ⟨kept, created, htasks, hkept, hcreated⟩ := (replaceLostMemberships_continues hrun).split
  refine ⟨kept.filter (fun task => task.id ≠ removal.target),
    created.filter (fun task => task.id ≠ removal.target), ?_, ?_, ?_⟩
  · rw [htasks, List.filter_append]
  · rw [← removal.filter_remaining hid]
    apply List.rel_filter _ hkept
    intro task task' hstays
    simp only [hstays.id]
  · intro task htask
    exact hcreated task (List.mem_filter.mp htask).1

/-- **No conversation leaves every task, and no other task changes, exactly when** every removed
row that finds only a failed row of its origin's task is held by another that is linked. -/
theorem removal_keeps_conversations_iff (hids : (existing.map LinkedBoards.BoardTask.id).Nodup)
    (h : removal.call canonicalProject existing deps = .ok after) :
    (KeepsConversations existing after ∧ removal.OthersUnchanged existing after) ↔
      removal.Relinked canonicalProject existing deps := by
  rw [and_iff_left (removal.others_unchanged hids h)]
  obtain ⟨target, htarget, hid, acc, hrun, rfl⟩ := removal.call_ok hids h
  have hmade := fun identity => Refusals.run_made
    (Q := fun state : Replacing => identityHeldBy state.tasks identity = true)
    (M := fun state row => relinks target.project state.tasks row = true ∧
      assignmentHoldsIdentity row identity = true)
    (fun state row next hturn => replaceLost_held hturn identity) hrun
  have hkeeps : ∀ identity state row next,
      replaceLost canonicalProject target.project removal.forbid deps state row = .ok next →
        identityHeldBy state.tasks identity = true → identityHeldBy next.tasks identity = true :=
    fun identity state row next hturn hheld => (replaceLost_held hturn identity).mpr (Or.inl hheld)
  constructor
  · -- the holder of a kept identity was there before the row's turn, or a turn linked it
    intro hkept other hother hotherid state row identity hturn hreuses hidentity
    obtain rfl : other = target :=
      List.inj_on_of_nodup_map hids hother htarget (hotherid.trans hid.symm)
    obtain ⟨origin, hlost⟩ := lost_of_reusesFailedRow hreuses hidentity
    obtain ⟨hlive, -, horigin, hfree⟩ := lostAdmission_some.mp hlost
    have hheld := hkept other hother row (Removal.removed_subset hturn.mem) hlive identity hidentity
      (by rw [horigin]; rfl)
    rcases (hmade identity).mp hheld with hbefore | ⟨state', row', hturn', hlinks, hholds⟩
    · have hstate := Refusals.Turn.keeps
        (Q := fun state : Replacing => identityHeldBy state.tasks identity = true)
        (hkeeps identity) hturn hbefore
      rw [hstate] at hfree
      cases hfree
    · exact ⟨state', row', hturn', hlinks, hholds⟩
  · intro hrelinked task htask row hrow hlive identity hidentity horigin
    obtain ⟨origin, horigin⟩ := Option.isSome_iff_exists.mp horigin
    rcases Removal.stays_or_removed hids htarget hid htask hrow with ⟨held, hmem, hrow⟩ | hremoved
    · refine (hmade identity).mpr (Or.inl (identityHeldBy_iff.mpr ⟨held, hmem, ?_⟩))
      exact holds_iff_exists.mpr ⟨row, hrow, hlive, assignmentHoldsIdentity_self hidentity⟩
    · obtain ⟨state, hturn⟩ := Refusals.turn_of_mem hrun hremoved
      cases hheld : identityHeldBy state.tasks identity with
      | true =>
        exact Refusals.Turn.last
          (Q := fun state : Replacing => identityHeldBy state.tasks identity = true)
          (hkeeps identity) hturn (fun next hnext => hkeeps identity state row next hnext hheld) hrun
      | false =>
        have hlost := lostAdmission_some.mpr ⟨hlive, hidentity, horigin, hheld⟩
        apply (hmade identity).mpr
        right
        cases hreuses : reusesFailedRow target.project state.tasks row with
        | true => exact hrelinked target htarget hid state row identity hturn hreuses hidentity
        | false =>
          have hlinks : relinks target.project state.tasks row = true := by
            rw [relinks, hlost, hreuses]
            rfl
          exact ⟨state, row, hturn, hlinks, assignmentHoldsIdentity_self hidentity⟩

end

/-! ### A lost conversation -/

def morning : Instant := ⟨"2026-01-01T08:00:00.000Z", some 1767254400000⟩

/-- The row of a launch. -/
def launchRow (state : AssignmentState) (conversationId : Option String) : TaskAssignment :=
  { statusBeforeLink := none, launchId := some "launch-1", clientAttemptId := none, path := none
    conversationId := conversationId, panePid := none, state := state, error := none
    at_ := morning, accountId := none, engine := none }

/-- A task with one row. -/
def taskOf (id : String) (origin : Option TaskOrigin) (row : TaskAssignment) : LocalTask :=
  let bare := barePlaceholder
    (replacementInput "viewer" (.launch, "launch-1") ⟨none, none, none, none, none, none⟩)
    ⟨morning, id⟩
  { bare with rest := { bare.rest with origin := origin, assignments := [row] } }

/-- A launch failed on its own placeholder, and its conversation is on another task. -/
def failedPlaceholder : List LocalTask :=
  [taskOf "task-1" none (launchRow .linked (some "conversation-1")),
    taskOf "task-2" (some ⟨.launch, "launch-1", .pending⟩) (launchRow .failed none)]

def morningDeps (n : Nat) : MembershipDeps := ⟨morning, "task-" ++ toString (n + 3)⟩

/-- What the deletion of the other task leaves of it. -/
theorem call_failedPlaceholder :
    (Removal.delete "task-1").call id failedPlaceholder morningDeps =
      .ok [taskOf "task-2" (some ⟨.launch, "launch-1", .pending⟩)
        (launchRow .failed (some "conversation-1"))] := by
  decide

theorem deleteTask_loses_conversation :
    ¬ ∀ (canonicalProject : String → String) (existing after : List LocalTask)
        (deps : Nat → MembershipDeps) (removal : Removal),
      (existing.map LinkedBoards.BoardTask.id).Nodup →
        removal.call canonicalProject existing deps = .ok after →
          KeepsConversations existing after ∧ removal.OthersUnchanged existing after := by
  intro h
  have hkept := (h id failedPlaceholder _ morningDeps (.delete "task-1") (by decide)
    call_failedPlaceholder).1
  have hheld := hkept _ List.mem_cons_self _ List.mem_cons_self (by decide) _ rfl rfl
  revert hheld
  decide

/-- The equivalence for that deletion, where neither side holds. -/
theorem removal_keeps_conversations_iff_failedPlaceholder :
    (KeepsConversations failedPlaceholder [taskOf "task-2" (some ⟨.launch, "launch-1", .pending⟩)
        (launchRow .failed (some "conversation-1"))] ∧
      (Removal.delete "task-1").OthersUnchanged failedPlaceholder
        [taskOf "task-2" (some ⟨.launch, "launch-1", .pending⟩)
          (launchRow .failed (some "conversation-1"))]) ↔
      (Removal.delete "task-1").Relinked id failedPlaceholder morningDeps :=
  removal_keeps_conversations_iff (by decide) call_failedPlaceholder

end Delegatus.TaskMembership
