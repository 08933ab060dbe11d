import Delegatus.TaskMembership
import Mathlib.Tactic.SplitIfs

/-!
# What recording an identity leaves

`upsertLinked` fills the first row that holds the identity, a failed one too, or appends a
linked row.  Both rows hold the identity afterwards and a second upsert changes nothing
(`upsertLinked_settled`).  `Recorded` is what a commit makes of a task, and `joinTasks_ok` what
an admission makes of a task list.
-/

namespace Delegatus.TaskMembership

open LinkStamps (Instant)
open LinkedBoards (LocalPart LocalTask MembershipIdentity OriginKind TaskAssignment
  assignmentHoldsIdentity completedPart hasIdentity nonEmpty truthy upsertLinked
  withTaskCompletion)

/-! ### Identifiers -/

@[simp] theorem truthy_none : truthy none = false := rfl

theorem nonEmpty_of_truthy {field : Option String} (h : truthy field = true) :
    nonEmpty field = field := by
  cases field with
  | none => rfl
  | some text => simp_all [truthy, nonEmpty]

theorem nonEmpty_of_not_truthy {field : Option String} (h : truthy field = false) :
    nonEmpty field = none := by
  cases field with
  | none => rfl
  | some text => simp_all [truthy, nonEmpty]

@[simp] theorem truthy_nonEmpty (field : Option String) : truthy (nonEmpty field) = truthy field := by
  cases h : truthy field with
  | true => rw [nonEmpty_of_truthy h, h]
  | false => rw [nonEmpty_of_not_truthy h, truthy_none]

/-- A held field, which takes the given one where it has none. -/
def fill (held given : Option String) : Option String :=
  if truthy given && !truthy held then given else held

theorem fill_of_truthy {held : Option String} (given : Option String) (h : truthy held = true) :
    fill held given = held := by
  simp [fill, h]

theorem fill_of_missing {held given : Option String} (hheld : truthy held = false)
    (hgiven : truthy given = true) : fill held given = given := by
  simp [fill, hheld, hgiven]

theorem fill_of_not_given (held : Option String) {given : Option String}
    (h : truthy given = false) : fill held given = held := by
  simp [fill, h]

@[simp] theorem fill_fill (held given : Option String) :
    fill (fill held given) given = fill held given := by
  cases hgiven : truthy given with
  | false => rw [fill_of_not_given _ hgiven]
  | true =>
    cases hheld : truthy held with
    | true => rw [fill_of_truthy _ hheld, fill_of_truthy _ hheld]
    | false => rw [fill_of_missing hheld hgiven, fill_of_truthy _ hgiven]

@[simp] theorem fill_nonEmpty (given : Option String) : fill (nonEmpty given) given = nonEmpty given := by
  cases hgiven : truthy given with
  | false => rw [fill_of_not_given _ hgiven]
  | true => rw [nonEmpty_of_truthy hgiven, fill_of_truthy _ hgiven]

/-! ### Rows -/

/-- The row `current` with the identifiers that it lacked. -/
def filledRow (identity : MembershipIdentity) (current : TaskAssignment) : TaskAssignment :=
  { current with
    launchId := fill current.launchId identity.launchId
    clientAttemptId := fill current.clientAttemptId identity.clientAttemptId
    conversationId := fill current.conversationId identity.conversationId
    path := current.path.orElse (fun _ => identity.path)
    engine := if identity.engine.isSome && !current.engine.isSome then identity.engine else current.engine
    accountId := fill current.accountId identity.accountId }

/-- The row that a task without one gains. -/
def linkedRow (task : LocalTask) (identity : MembershipIdentity) (now : Instant) : TaskAssignment :=
  { statusBeforeLink := if truthy identity.launchId then some task.status else none
    launchId := nonEmpty identity.launchId
    clientAttemptId := nonEmpty identity.clientAttemptId
    path := identity.path
    conversationId := nonEmpty identity.conversationId
    panePid := none
    state := .linked
    error := none
    at_ := now
    accountId := nonEmpty identity.accountId
    engine := identity.engine }

@[simp] theorem filledRow_state (identity : MembershipIdentity) (current : TaskAssignment) :
    (filledRow identity current).state = current.state := rfl

@[simp] theorem linkedRow_state (task : LocalTask) (identity : MembershipIdentity) (now : Instant) :
    (linkedRow task identity now).state = .linked := rfl

/-- A row still holds what it held when it is filled. -/
theorem assignmentHoldsIdentity_filledRow {identity : MembershipIdentity} {current : TaskAssignment}
    (h : assignmentHoldsIdentity current identity = true) :
    assignmentHoldsIdentity (filledRow identity current) identity = true := by
  cases hc : truthy identity.conversationId <;> cases hc' : truthy current.conversationId <;>
    cases hl : truthy identity.launchId <;> cases hl' : truthy current.launchId <;>
      cases ha : truthy identity.clientAttemptId <;> cases ha' : truthy current.clientAttemptId <;>
        simp_all [assignmentHoldsIdentity, filledRow, fill]

theorem filledRow_filledRow (identity : MembershipIdentity) (current : TaskAssignment) :
    filledRow identity (filledRow identity current) = filledRow identity current := by
  cases hgiven : identity.engine <;> cases hheld : current.engine <;>
    cases hpath : current.path <;> simp [filledRow, hgiven, hheld, hpath]

theorem filledRow_linkedRow (task : LocalTask) (identity : MembershipIdentity) (now : Instant) :
    filledRow identity (linkedRow task identity now) = linkedRow task identity now := by
  cases hgiven : identity.engine <;> simp [filledRow, linkedRow, hgiven]

/-- A linked row of an identity answers as the identity's own row does. -/
theorem assignmentHoldsIdentity_linkedRow (task : LocalTask) (now : Instant)
    {given identity : MembershipIdentity} {row : TaskAssignment}
    (hl : row.launchId = given.launchId) (ha : row.clientAttemptId = given.clientAttemptId)
    (hc : row.conversationId = given.conversationId) (hp : row.path = given.path) :
    assignmentHoldsIdentity (linkedRow task given now) identity =
      assignmentHoldsIdentity row identity := by
  simp only [assignmentHoldsIdentity, linkedRow, truthy_nonEmpty, hl, ha, hc, hp]
  split_ifs with hconversation hlaunch hattempt
  · simp only [nonEmpty_of_truthy (Bool.and_eq_true_iff.mp hconversation).2]
  · simp only [nonEmpty_of_truthy (Bool.and_eq_true_iff.mp hlaunch).2]
  · simp only [nonEmpty_of_truthy (Bool.and_eq_true_iff.mp hattempt).2]
  · rfl

/-! ### The upsert -/

section Split

variable {α : Type} {p : α → Bool}

theorem findIdx?_split {xs : List α} {index : Nat} (h : xs.findIdx? p = some index) :
    ∃ pre x post, xs = pre ++ x :: post ∧ pre.length = index ∧ p x = true ∧
      ∀ y ∈ pre, p y = false := by
  obtain ⟨hlt, hfound, hbefore⟩ := List.findIdx?_eq_some_iff_getElem.mp h
  refine ⟨xs.take index, xs[index], xs.drop (index + 1), ?_, ?_, hfound, ?_⟩
  · rw [List.cons_getElem_drop_succ, List.take_append_drop]
  · exact List.length_take_of_le (Nat.le_of_lt hlt)
  · intro y hy
    obtain ⟨j, hj, rfl⟩ := List.mem_take_iff_getElem.mp hy
    have hj' : j < index := by omega
    simpa using hbefore j hj'

theorem findIdx?_of_split {pre post : List α} {x : α} (hpre : ∀ y ∈ pre, p y = false)
    (hx : p x = true) : (pre ++ x :: post).findIdx? p = some pre.length := by
  rw [List.findIdx?_append, List.findIdx?_eq_none_iff.mpr hpre]
  simp [List.findIdx?_cons, hx]

theorem modify_split (f : α → α) (pre post : List α) (x : α) :
    (pre ++ x :: post).modify pre.length f = pre ++ f x :: post := by
  induction pre with
  | nil => rfl
  | cons y pre ih => simpa using ih

end Split

/-- No row of the task, a failed one neither, holds the identity. -/
def Unrecorded (identity : MembershipIdentity) (task : LocalTask) : Prop :=
  ∀ row ∈ task.rest.assignments, assignmentHoldsIdentity row identity = false

/-- The rows that an upsert of `identity` leaves of `rows`. -/
inductive Upserted (identity : MembershipIdentity) (fresh : TaskAssignment) :
    List TaskAssignment → List TaskAssignment → Prop where
  | filled {pre post : List TaskAssignment} {row : TaskAssignment}
      (before : ∀ other ∈ pre, assignmentHoldsIdentity other identity = false)
      (holder : assignmentHoldsIdentity row identity = true) :
      Upserted identity fresh (pre ++ row :: post) (pre ++ filledRow identity row :: post)
  | linked {rows : List TaskAssignment}
      (none : ∀ row ∈ rows, assignmentHoldsIdentity row identity = false) :
      Upserted identity fresh rows (rows ++ [fresh])

theorem upsertLinked_upserted (task : LocalTask) (identity : MembershipIdentity) (now : Instant) :
    Upserted identity (linkedRow task identity now) task.rest.assignments
      (upsertLinked task identity now).1.rest.assignments := by
  cases hfound : task.rest.assignments.findIdx?
      (fun assignment => assignmentHoldsIdentity assignment identity) with
  | none =>
    have hnone := List.findIdx?_eq_none_iff.mp hfound
    have hrows : (upsertLinked task identity now).1.rest.assignments =
        task.rest.assignments ++ [linkedRow task identity now] := by
      unfold upsertLinked
      rw [hfound]
      rfl
    rw [hrows]
    exact .linked hnone
  | some index =>
    obtain ⟨pre, row, post, hsplit, hlength, hrow, hpre⟩ := findIdx?_split hfound
    have hrows : (upsertLinked task identity now).1.rest.assignments =
        task.rest.assignments.modify index (filledRow identity) := by
      unfold upsertLinked
      rw [hfound]
      dsimp only
      split
      · rename_i hsame
        exact hsame.symm
      · rfl
    rw [hrows, hsplit, ← hlength, modify_split]
    exact .filled hpre hrow

theorem upsertLinked_of_settled {task : LocalTask} {identity : MembershipIdentity} {now : Instant}
    {pre post : List TaskAssignment} {row : TaskAssignment}
    (hrows : task.rest.assignments = pre ++ row :: post)
    (hpre : ∀ other ∈ pre, assignmentHoldsIdentity other identity = false)
    (hrow : assignmentHoldsIdentity row identity = true) (hsame : filledRow identity row = row) :
    upsertLinked task identity now = (task, false) := by
  have hfound : task.rest.assignments.findIdx?
      (fun assignment => assignmentHoldsIdentity assignment identity) = some pre.length := by
    rw [hrows]
    exact findIdx?_of_split hpre hrow
  have hmodified : task.rest.assignments.modify pre.length (filledRow identity) =
      task.rest.assignments := by
    rw [hrows, modify_split, hsame]
  unfold upsertLinked
  rw [hfound]
  exact if_pos hmodified

theorem assignmentHoldsIdentity_linked {identity : MembershipIdentity}
    (h : hasIdentity identity = true) (task : LocalTask) (now : Instant) :
    assignmentHoldsIdentity (linkedRow task identity now) identity = true := by
  simp only [hasIdentity, Bool.or_eq_true] at h
  simp only [assignmentHoldsIdentity, linkedRow, truthy_nonEmpty, Bool.and_self]
  split_ifs with hconversation hlaunch hattempt
  · simp [nonEmpty_of_truthy hconversation]
  · simp [nonEmpty_of_truthy hlaunch]
  · simp [nonEmpty_of_truthy hattempt]
  · simp_all

theorem upsertLinked_of_unchanged {task : LocalTask} {identity : MembershipIdentity} {now : Instant}
    (h : (upsertLinked task identity now).2 = false) : (upsertLinked task identity now).1 = task := by
  unfold upsertLinked at h ⊢
  split
  · rename_i hfound
    rw [hfound] at h
    dsimp only at h ⊢
    split_ifs with hsame
    · rfl
    · rw [if_neg hsame] at h
      cases h
  · rename_i hfound
    rw [hfound] at h
    cases h

theorem upsertLinked_frame (task : LocalTask) (identity : MembershipIdentity) (now : Instant) :
    (upsertLinked task identity now).1.id = task.id ∧
      (upsertLinked task identity now).1.project = task.project ∧
      (upsertLinked task identity now).1.rest.origin = task.rest.origin := by
  unfold upsertLinked
  split
  · dsimp only
    split_ifs
    · exact ⟨rfl, rfl, rfl⟩
    · exact ⟨rfl, rfl, rfl⟩
  · exact ⟨rfl, rfl, rfl⟩

/-- **A second upsert changes nothing.** -/
theorem upsertLinked_again {identity : MembershipIdentity} (hidentity : hasIdentity identity = true)
    {task task' : LocalTask} {now : Instant} {rows : List TaskAssignment}
    (h : Upserted identity (linkedRow task identity now) rows task'.rest.assignments)
    (now' : Instant) : upsertLinked task' identity now' = (task', false) := by
  generalize hrows : task'.rest.assignments = rows' at h
  cases h with
  | filled before holder =>
    exact upsertLinked_of_settled hrows before (assignmentHoldsIdentity_filledRow holder)
      (filledRow_filledRow identity _)
  | linked none =>
    exact upsertLinked_of_settled hrows none (assignmentHoldsIdentity_linked hidentity task now)
      (filledRow_linkedRow task identity now)

/-! ### Commits -/

theorem withTaskCompletion_frame {task previous : LocalTask} {rest : LocalPart}
    (h : withTaskCompletion task previous = .ok rest) :
    rest.assignments = task.rest.assignments ∧ rest.origin = task.rest.origin := by
  unfold withTaskCompletion at h
  split at h
  · obtain rfl := Except.ok.inj h
    exact ⟨rfl, rfl⟩
  · split at h
    · cases h
    · obtain rfl := Except.ok.inj h
      unfold completedPart
      dsimp only
      split_ifs
      · exact ⟨rfl, rfl⟩
      · exact ⟨rfl, rfl⟩
      · exact ⟨rfl, rfl⟩

/-- What a commit of `identity` makes of a task. -/
structure Recorded (identity : MembershipIdentity) (now : Instant) (task task' : LocalTask) :
    Prop where
  id : task'.id = task.id
  project : task'.project = task.project
  origin : task'.rest.origin = task.rest.origin
  rows : task'.rest.assignments = (upsertLinked task identity now).1.rest.assignments

theorem Recorded.upserted {identity : MembershipIdentity} {now : Instant} {task task' : LocalTask}
    (h : Recorded identity now task task') :
    Upserted identity (linkedRow task identity now) task.rest.assignments task'.rest.assignments := by
  rw [h.rows]
  exact upsertLinked_upserted task identity now

theorem holds_iff_exists {identity : MembershipIdentity} {task : LocalTask} :
    holds identity task = true ↔ ∃ row ∈ task.rest.assignments,
      row.state ≠ .failed ∧ assignmentHoldsIdentity row identity = true := by
  simp [holds]

/-- Recording an identity that no live row of the task holds makes a live row only where no
failed one holds it. -/
theorem Recorded.holds_iff {identity : MembershipIdentity} {now : Instant} {task task' : LocalTask}
    (h : Recorded identity now task task') (hfree : holds identity task = false)
    (other : MembershipIdentity) :
    holds other task' = true ↔ holds other task = true ∨ (Unrecorded identity task ∧
      assignmentHoldsIdentity (linkedRow task identity now) other = true) := by
  have hrows := h.upserted
  simp only [holds_iff_exists, Unrecorded]
  rw [← Bool.not_eq_true, holds_iff_exists] at hfree
  have hlinked : (linkedRow task identity now).state ≠ .failed := by simp
  generalize linkedRow task identity now = fresh at hrows hlinked ⊢
  generalize task.rest.assignments = rows at hrows hfree ⊢
  generalize task'.rest.assignments = rows' at hrows ⊢
  cases hrows with
  | @filled pre post row before holder =>
    have hfailed : row.state = .failed := by
      by_contra hlive
      exact hfree ⟨row, by simp, hlive, holder⟩
    constructor
    · rintro ⟨held, hmem, hlive, hheld⟩
      refine Or.inl ⟨held, ?_, hlive, hheld⟩
      simp only [List.mem_append, List.mem_cons] at hmem ⊢
      rcases hmem with hmem | rfl | hmem
      · exact Or.inl hmem
      · exact absurd hfailed hlive
      · exact Or.inr (Or.inr hmem)
    · rintro (⟨held, hmem, hlive, hheld⟩ | ⟨hnone, -⟩)
      · refine ⟨held, ?_, hlive, hheld⟩
        simp only [List.mem_append, List.mem_cons] at hmem ⊢
        rcases hmem with hmem | rfl | hmem
        · exact Or.inl hmem
        · exact absurd hfailed hlive
        · exact Or.inr (Or.inr hmem)
      · have hrow := hnone row (by simp)
        rw [holder] at hrow
        cases hrow
  | linked none =>
    constructor
    · rintro ⟨held, hmem, hlive, hheld⟩
      rcases List.mem_append.mp hmem with hmem | hmem
      · exact Or.inl ⟨held, hmem, hlive, hheld⟩
      · obtain rfl := List.mem_singleton.mp hmem
        exact Or.inr ⟨none, hheld⟩
    · rintro (⟨held, hmem, hlive, hheld⟩ | ⟨-, hheld⟩)
      · exact ⟨held, List.mem_append_left _ hmem, hlive, hheld⟩
      · exact ⟨fresh, by simp, hlinked, hheld⟩

theorem commitMember_ok {identity : MembershipIdentity} {now : Instant}
    {tasks : List LocalTask} {changed : Bool} {index : Nat} {task : LocalTask}
    {out : List LocalTask × Bool} (htask : tasks[index]? = some task)
    (h : commitMember identity now (tasks, changed) index = .ok out) :
    ∃ task', Recorded identity now task task' ∧ out.1 = tasks.set index task' := by
  obtain ⟨hid, hproject, horigin⟩ := upsertLinked_frame task identity now
  unfold commitMember at h
  simp only [htask] at h
  split at h
  · split at h
    · rename_i rest hcompleted
      obtain ⟨hassignments, hrest⟩ := withTaskCompletion_frame hcompleted
      obtain rfl := Except.ok.inj h
      exact ⟨{ (upsertLinked task identity now).1 with rest := rest },
        ⟨hid, hproject, hrest.trans horigin, hassignments⟩, rfl⟩
    · cases h
  · rename_i hunchanged
    obtain rfl := Except.ok.inj h
    have hsame := upsertLinked_of_unchanged (Bool.eq_false_iff.mpr hunchanged)
    refine ⟨task, ⟨rfl, rfl, rfl, by rw [hsame]⟩, ?_⟩
    obtain ⟨hlt, rfl⟩ := List.getElem?_eq_some_iff.mp htask
    exact (List.set_getElem_self hlt).symm

/-- The tasks at `indexes` recorded the identity, and no other task changed. -/
structure RecordedAt (identity : MembershipIdentity) (now : Instant) (indexes : List Nat)
    (tasks tasks' : List LocalTask) : Prop where
  length : tasks'.length = tasks.length
  recorded : ∀ i task, i ∈ indexes → tasks[i]? = some task →
    ∃ task', tasks'[i]? = some task' ∧ Recorded identity now task task'
  others : ∀ i, i ∉ indexes → tasks'[i]? = tasks[i]?

/-- The tasks at `indexes` changed by `change`, and no other task changed. -/
structure ChangedAt (change : LocalTask → LocalTask → Prop) (indexes : List Nat)
    (tasks tasks' : List LocalTask) : Prop where
  length : tasks'.length = tasks.length
  changed : ∀ i task, i ∈ indexes → tasks[i]? = some task → ∃ task', tasks'[i]? = some task' ∧ change task task'
  others : ∀ i, i ∉ indexes → tasks'[i]? = tasks[i]?

/-- What a commit makes of each task, the commits of several make of theirs. -/
theorem run_commitMember_changes {identity : MembershipIdentity} {now : Instant}
    {change : LocalTask → LocalTask → Prop}
    (hcommit : ∀ {tasks : List LocalTask} {changed : Bool} {index : Nat} {task : LocalTask}
      {out : List LocalTask × Bool}, tasks[index]? = some task →
      commitMember identity now (tasks, changed) index = .ok out →
      ∃ task', change task task' ∧ out.1 = tasks.set index task')
    {indexes : List Nat} (hnodup : indexes.Nodup) {start out : List LocalTask × Bool}
    (h : Refusals.run (commitMember identity now) start indexes = .ok out) :
    ChangedAt change indexes start.1 out.1 := by
  induction indexes generalizing start with
  | nil =>
    obtain rfl := Except.ok.inj h
    exact ⟨rfl, fun _ _ hmem => absurd hmem List.not_mem_nil, fun _ _ => rfl⟩
  | cons index rest ih =>
    obtain ⟨hindex, hrest⟩ := List.nodup_cons.mp hnodup
    obtain ⟨mid, hmid, hrun⟩ := Refusals.run_cons_ok.mp h
    have hlater := ih hrest hrun
    cases htask : start.1[index]? with
    | none =>
      have hsame : mid = start := by
        unfold commitMember at hmid
        rw [htask] at hmid
        exact (Except.ok.inj hmid).symm
      subst hsame
      refine ⟨hlater.length, ?_, ?_⟩
      · intro i task hmem hi
        rcases List.mem_cons.mp hmem with rfl | hmem
        · rw [htask] at hi
          cases hi
        · exact hlater.changed i task hmem hi
      · intro i hi
        exact hlater.others i (fun hmem => hi (List.mem_cons_of_mem _ hmem))
    | some task =>
      obtain ⟨task', hchange, hset⟩ := hcommit htask hmid
      have hlt : index < start.1.length := (List.getElem?_eq_some_iff.mp htask).1
      refine ⟨?_, ?_, ?_⟩
      · rw [hlater.length, hset, List.length_set]
      · intro i held hmem hi
        by_cases heq : i = index
        · subst heq
          obtain rfl := Option.some.inj (htask.symm.trans hi)
          refine ⟨task', ?_, hchange⟩
          rw [hlater.others i hindex, hset, List.getElem?_set_self hlt]
        · have hmem' : i ∈ rest := (List.mem_cons.mp hmem).resolve_left heq
          apply hlater.changed i held hmem'
          rw [hset, List.getElem?_set_ne (Ne.symm heq), hi]
      · intro i hi
        have hne : index ≠ i := fun heq => hi (heq ▸ List.mem_cons_self)
        rw [hlater.others i (fun hmem => hi (List.mem_cons_of_mem _ hmem)), hset,
          List.getElem?_set_ne hne]

theorem run_commitMember {identity : MembershipIdentity} {now : Instant} {indexes : List Nat}
    (hnodup : indexes.Nodup) {start out : List LocalTask × Bool}
    (h : Refusals.run (commitMember identity now) start indexes = .ok out) :
    RecordedAt identity now indexes start.1 out.1 := by
  have hchanged := run_commitMember_changes commitMember_ok hnodup h
  exact ⟨hchanged.length, hchanged.changed, hchanged.others⟩

/-- Commits of tasks that the identity is recorded on leave everything as it is. -/
theorem run_commitMember_again {identity : MembershipIdentity} {now : Instant}
    {tasks : List LocalTask} {indexes : List Nat}
    (h : ∀ i ∈ indexes, ∀ task, tasks[i]? = some task → upsertLinked task identity now = (task, false))
    (changed : Bool) :
    Refusals.run (commitMember identity now) (tasks, changed) indexes = .ok (tasks, changed) := by
  induction indexes with
  | nil => rfl
  | cons index rest ih =>
    apply Refusals.run_cons_ok.mpr
    refine ⟨(tasks, changed), ?_, ih (fun i hi => h i (List.mem_cons_of_mem _ hi))⟩
    unfold commitMember
    cases htask : tasks[index]? with
    | none => rfl
    | some task => simp [h index List.mem_cons_self task htask]

/-- The verdict of a launch's own check. -/
def MembershipInput.verdict (input : MembershipInput) (tasks : List LocalTask) :
    Option MembershipRefusal :=
  input.admission.bind (fun admission => admission tasks)

theorem joinTasks_ok {existing : List LocalTask} {input : MembershipInput} {now : Instant}
    {indexes : List Nat} {taskIds : List String} {result : MembershipResult}
    (hnodup : indexes.Nodup) (h : joinTasks existing input now indexes taskIds = .ok result) :
    result.taskIds = taskIds ∧ result.created = [] ∧
      RecordedAt input.identity now indexes existing result.tasks := by
  unfold joinTasks at h
  split at h
  · cases h
  · obtain ⟨state, hrun, rfl⟩ := Refusals.map_eq_ok.mp h
    exact ⟨rfl, rfl, run_commitMember hnodup hrun⟩

theorem joinTasks_again {existing : List LocalTask} {input : MembershipInput} {now : Instant}
    {indexes : List Nat} (taskIds : List String)
    (h : ∀ i ∈ indexes, ∀ task, existing[i]? = some task →
      upsertLinked task input.identity now = (task, false))
    (result : MembershipResult) :
    joinTasks existing input now indexes taskIds = .ok result ↔
      input.verdict (indexes.filterMap (existing[·]?)) = none ∧
        result = ⟨existing, taskIds, [], false⟩ := by
  unfold joinTasks MembershipInput.verdict
  rw [run_commitMember_again h]
  cases input.admission.bind fun admission => admission (indexes.filterMap (existing[·]?)) with
  | some refusal => simp
  | none => simp [Except.map, eq_comm]

/-! ### Places -/

theorem ofOrigin_of_same (project : String) (origin : OriginKind × String) {task task' : LocalTask}
    (hproject : task'.project = task.project)
    (horigin : task'.rest.origin = task.rest.origin) :
    ofOrigin project origin task' = ofOrigin project origin task := by
  simp only [ofOrigin, hasOrigin, hproject, horigin]

theorem mem_indexesOf {wanted : LocalTask → Bool} {tasks : List LocalTask} {i : Nat} :
    i ∈ indexesOf wanted tasks ↔ ∃ task, tasks[i]? = some task ∧ wanted task = true := by
  unfold indexesOf
  rw [List.mem_filter, List.mem_range]
  constructor
  · rintro ⟨hlt, hwanted⟩
    rw [List.getElem?_eq_getElem hlt] at hwanted
    exact ⟨tasks[i], List.getElem?_eq_getElem hlt, hwanted⟩
  · rintro ⟨task, htask, hwanted⟩
    refine ⟨(List.getElem?_eq_some_iff.mp htask).1, ?_⟩
    rw [htask]
    exact hwanted

theorem nodup_indexesOf (wanted : LocalTask → Bool) (tasks : List LocalTask) :
    (indexesOf wanted tasks).Nodup :=
  List.nodup_range.filter _

theorem indexesOf_eq_nil {wanted : LocalTask → Bool} {tasks : List LocalTask} :
    indexesOf wanted tasks = [] ↔ ∀ task ∈ tasks, wanted task = false := by
  rw [List.eq_nil_iff_forall_not_mem]
  constructor
  · intro h task htask
    obtain ⟨i, hi⟩ := List.getElem?_of_mem htask
    by_contra hwanted
    exact h i (mem_indexesOf.mpr ⟨task, hi, Bool.eq_true_of_not_eq_false hwanted⟩)
  · intro h i hi
    obtain ⟨task, htask, hwanted⟩ := mem_indexesOf.mp hi
    rw [h task (List.mem_of_getElem? htask)] at hwanted
    cases hwanted

/-! ### Admissions without targets -/

variable {existing : List LocalTask} {input : MembershipInput} {deps : MembershipDeps}
  {result : MembershipResult}

theorem ensureTaskMembership_untargeted (canonicalProject : String → String)
    (h : input.explicitTaskIds = []) :
    ensureTaskMembership canonicalProject existing input deps =
      ensureUntargeted existing input deps := by
  unfold ensureTaskMembership
  rw [if_pos h]

theorem ensureUntargeted_of_resolved {indexes : List Nat} (h : resolved existing input = some indexes) :
    ensureUntargeted existing input deps = .ok result ↔ precheck existing input = .ok () ∧
      joinTasks existing input deps.now indexes (idsAt existing indexes) = .ok result := by
  unfold ensureUntargeted
  rw [h]
  refine Refusals.bind_eq_ok.trans ⟨?_, fun h => ⟨(), h⟩⟩
  rintro ⟨_, hcheck, hjoined⟩
  exact ⟨hcheck, hjoined⟩

theorem ensureUntargeted_of_unresolved (h : resolved existing input = none) :
    ensureUntargeted existing input deps = .ok result ↔ precheck existing input = .ok () ∧
      result = ⟨existing ++ [placeholder input deps], [deps.id], [deps.id], true⟩ := by
  unfold ensureUntargeted
  rw [h]
  refine Refusals.bind_eq_ok.trans ⟨?_, fun h => ⟨(), h.1, congrArg Except.ok h.2.symm⟩⟩
  rintro ⟨_, hcheck, hcreated⟩
  exact ⟨hcheck, (Except.ok.inj hcreated).symm⟩

end Delegatus.TaskMembership
